import ThrottleKit.Lib.Handles
import ThrottleKit.Server.LeaseTable

/-!
# What the lease table accounts for

Every step of the service is a sequence of moves: the clock goes on, an admission begins or goes on,
a lease is minted, renewed or taken away. A move is stated with what it does to the guards, so that
each invariant is proved move by move.

The table has one entry for each answered admission that was allowed and not released. An admission
holds a slot besides if its admitter has a guard, and this is where the table and the guards part.

## Main definitions

* `Turn`, `Move` — what one move does
* `Accounted`, `Ledger`, `Timed` — the state, the slots and the deadlines

## Main results

* `step_chain` — a step is a sequence of moves
* `leases_accounted` — the table against the guards, over all runs
-/

namespace ThrottleKit.LeaseTable

open ThrottleKit.Adaptive ThrottleKit.JointLp ThrottleKit.Admission ThrottleKit.Unified

variable {γ : Type}

/-- The clock of the service does not go back. -/
def ClockForward (s : State γ) : Act → Prop
  | .resume _ _ now | .heartbeat _ now | .sweep now _ => s.clock ≤ now
  | _ => True

instance (s : State γ) : DecidablePred (ClockForward s)
  | .resume _ _ now | .heartbeat _ now | .sweep now _ => inferInstanceAs (Decidable (s.clock ≤ now))
  | .admitCall .. | .rateSettles .. | .costSettles .. | .fusedSettles .. | .release .. =>
    isTrue trivial

namespace Call

/-- The service has not answered it, and it has not failed. -/
def inProgress (c : Call γ) : Bool :=
  match c.admission.stage with
  | .threw _ => false
  | _ => !c.answered

/-- It was allowed, answered with a lease and not released since. -/
def tabled (c : Call γ) : Bool := c.answered && c.admission.unreleased

/-- Its admitter has a guard. -/
def guarded (c : Call γ) : Bool := c.admitter.concurrency.isSome

end Call

/-- What is known of an admission, with a guard and without. -/
structure Sound (admitter : Admitter γ) (a : Unified.Admission) : Prop where
  guarded : admitter.concurrency.isSome = true → a.Ok
  unguarded : admitter.concurrency = none → a.lease = none

/-- What holds of every admission of a reachable state. -/
structure Call.Ok (cfg : Config γ) (c : Call γ) : Prop where
  sound : Sound c.admitter c.admission
  known : ∃ policy, cfg.admitters policy = some c.admitter
  untouched : c.answered = false → c.admission.releaseCalls = 0
  settled : c.answered = true → ∃ result, c.admission.stage = .returned result

theorem not_holds_of_lease_eq_none {a : Unified.Admission} (h : a.lease = none) :
    a.holds = false := by
  rw [Unified.Admission.holds, h]
  rfl

/-! ### What one move does -/

/-- An event that is about no slot and no deadline. -/
def Event.reports : Event → Bool
  | .failed _ | .threw .. | .admitted .. | .beat _ => true
  | .granted _ | .gaveBack _ | .minted .. | .renewed .. | .swept .. => false

variable [Fintype γ]

/-- The in-flight count of all guards. -/
def inflight (guards : γ → Guard) : ℤ := ∑ g, (guards g).inflightCount

/-- Admission `i` goes from `c` to `a`, and the guards count it. -/
structure Turn (s : State γ) (i : ℕ) (c : Call γ) (guards : γ → Guard) (a : Unified.Admission) :
    Prop where
  get : s.calls[i]? = some c
  sound : Sound c.admitter a
  inflight : inflight guards = inflight s.guards - (if c.admission.holds then 1 else 0)
    + if a.holds then 1 else 0
  keeps : a.holds = true → c.admission.holds = true

/-- What a step is made of. -/
inductive Move (cfg : Config γ) : State γ → List Event → State γ → Prop
  | reports {s e} (h : e.reports = true) : Move cfg s [e] s
  | ticks {s now} (h : s.clock ≤ now) : Move cfg s [] { s with clock := now }
  | begins {s policy admitter guards warmup a} (hknown : cfg.admitters policy = some admitter)
      (hsound : Sound admitter a) (hcalls : a.releaseCalls = 0)
      (hinflight : inflight guards = inflight s.guards + if a.holds then 1 else 0) :
      Move cfg s (beginEvents s.calls.length a)
        { s with
          guards := guards
          warmup := warmup
          calls := s.calls ++ [⟨admitter, a, false⟩] }
  | settles {s i c guards a} (hturn : Turn s i c guards a) (hcall : c.answered = false)
      (hcalls : a.releaseCalls = 0) :
      Move cfg s (slotEvents i c.admission a)
        { s with guards := guards, calls := s.calls.set i ⟨c.admitter, a, false⟩ }
  | mints {s i c result leaseId} (hget : s.calls[i]? = some c) (hcall : c.answered = false)
      (hstage : c.admission.stage = .returned result) (hallowed : result.decision.allowed = true)
      (hfresh : leaseId ∉ s.leases.keys) :
      Move cfg s [.minted leaseId s.clock]
        { s with
          calls := s.calls.set i { c with answered := true }
          leases := s.leases.set leaseId ⟨i, s.clock + cfg.leaseTtlMs⟩ }
  | denies {s i c guards a result} (hturn : Turn s i c guards a) (hcall : c.answered = false)
      (hstage : a.stage = .returned result) (hdenied : a.unreleased = false) :
      Move cfg s (slotEvents i c.admission a)
        { s with guards := guards, calls := s.calls.set i ⟨c.admitter, a, true⟩ }
  /-- The lease goes, by a release or because it is past its deadline. -/
  | frees {s leaseId e c guards a result cause} (hlookup : s.leases.lookup leaseId = some e)
      (hturn : Turn s e.call c guards a) (hstage : a.stage = .returned result)
      (hreleased : a.unreleased = false)
      (hcause : cause = [] ∨ cause = [.swept leaseId s.clock] ∧ e.expiresAt ≤ s.clock) :
      Move cfg s (slotEvents e.call c.admission a ++ cause)
        { s with
          guards := guards
          calls := s.calls.set e.call ⟨c.admitter, a, true⟩
          leases := s.leases.erase leaseId }
  | renews {s leaseId e} (hlookup : s.leases.lookup leaseId = some e) :
      Move cfg s [.renewed leaseId s.clock]
        { s with leases := s.leases.set leaseId { e with expiresAt := s.clock + cfg.leaseTtlMs } }

/-! ### The table and the guards -/

/-- The admissions that have an entry. -/
def handles (leases : OrderedMap String Entry) : List ℕ := leases.entries.map (·.2.call)

theorem handles_set_of_notMem {leases : OrderedMap String Entry} {leaseId : String}
    (h : leaseId ∉ leases.keys) (e : Entry) :
    handles (leases.set leaseId e) = handles leases ++ [e.call] := by
  rw [handles, OrderedMap.entries_set_of_notMem h, List.map_append]
  rfl

theorem handles_renew {leases : OrderedMap String Entry} {leaseId : String} {e : Entry}
    (h : leases.lookup leaseId = some e) (deadline : ℚ) :
    handles (leases.set leaseId { e with expiresAt := deadline }) = handles leases :=
  OrderedMap.map_entries_set h rfl

theorem mem_handles_erase {leases : OrderedMap String Entry} (hdistinct : (handles leases).Nodup)
    {leaseId : String} {e : Entry} (hlookup : leases.lookup leaseId = some e) (i : ℕ) :
    i ∈ handles (leases.erase leaseId) ↔ i ∈ handles leases ∧ i ≠ e.call := by
  have hentry := OrderedMap.mem_entries_of_lookup hlookup
  have hiff : ∀ x ∈ leases.entries, x.1 = leaseId ↔ x.2.call = e.call := by
    intro x hx
    constructor
    · rintro rfl
      have hx' := OrderedMap.lookup_of_mem_entries (m := leases) hx
      rw [Option.some.inj (hx'.symm.trans hlookup)]
    · intro hcall
      rw [List.inj_on_of_nodup_map hdistinct hx hentry hcall]
  unfold handles
  rw [List.mem_map, List.mem_map]
  constructor
  · rintro ⟨x, hx, rfl⟩
    obtain ⟨hold, hne⟩ := List.mem_filter.mp hx
    rw [decide_eq_true_iff] at hne
    exact ⟨⟨x, hold, rfl⟩, fun hcall => hne ((hiff x hold).mpr hcall)⟩
  · rintro ⟨⟨x, hx, rfl⟩, hne⟩
    refine ⟨x, List.mem_filter.mpr ⟨hx, ?_⟩, rfl⟩
    rw [decide_eq_true_iff]
    exact fun hid => hne ((hiff x hx).mp hid)

theorem nodup_handles_erase {leases : OrderedMap String Entry} (hdistinct : (handles leases).Nodup)
    (leaseId : String) : (handles (leases.erase leaseId)).Nodup :=
  hdistinct.sublist (List.filter_sublist.map _)

/-- The guards count the admissions that hold a slot, and the table has an entry for each admission
that is to have one. -/
structure Accounted (cfg : Config γ) (s : State γ) : Prop where
  inflight : inflight s.guards = s.calls.countP (·.admission.holds)
  calls : ∀ c ∈ s.calls, c.Ok cfg
  distinct : (handles s.leases).Nodup
  tabled : ∀ i, i ∈ handles s.leases ↔ ∃ c, s.calls[i]? = some c ∧ c.tabled = true

variable {cfg : Config γ} {s s' : State γ} {new : List Event}

theorem accounted_new (cfg : Config γ) (now : ℚ) : Accounted cfg (.new cfg now) where
  inflight := Finset.sum_eq_zero fun _ _ => rfl
  calls _ hc := absurd hc List.not_mem_nil
  distinct := List.nodup_nil
  tabled i := by simp [State.new, handles, OrderedMap.empty]

theorem Turn.countP_set {i : ℕ} {c : Call γ} {guards : γ → Guard} {a : Unified.Admission}
    (h : Turn s i c guards a)
    (hs : LeaseTable.inflight s.guards = s.calls.countP (·.admission.holds)) (answered : Bool) :
    LeaseTable.inflight guards
      = (s.calls.set i ⟨c.admitter, a, answered⟩).countP (·.admission.holds) := by
  obtain ⟨hlt, hget⟩ := List.getElem?_eq_some_iff.mp h.get
  rw [List.countP_set hlt, hget, h.inflight, hs]
  have hpos : c.admission.holds = true → 0 < s.calls.countP (·.admission.holds) := fun hholds =>
    List.countP_pos_iff.mpr ⟨c, List.mem_of_getElem? h.get, hholds⟩
  dsimp only
  split <;> split <;> simp_all

/-- An admission that has no entry is not in the table. -/
theorem Accounted.notMem_handles (h : Accounted cfg s) {i : ℕ} {c : Call γ}
    (hget : s.calls[i]? = some c) (hcall : c.answered = false) : i ∉ handles s.leases := by
  intro hi
  obtain ⟨b, hb, hbt⟩ := (h.tabled i).mp hi
  obtain rfl := Option.some.inj (hget.symm.trans hb)
  rw [Call.tabled, hcall] at hbt
  cases hbt

/-- An admission without an entry takes the place of `c`, whose entry goes if it had one. -/
theorem Accounted.put (h : Accounted cfg s) {i : ℕ} {c : Call γ} {guards : γ → Guard}
    {a : Unified.Admission} {answered : Bool} {leases : OrderedMap String Entry}
    (hturn : Turn s i c guards a) (hok : Call.Ok cfg ⟨c.admitter, a, answered⟩)
    (htabled : Call.tabled ⟨c.admitter, a, answered⟩ = false) (hdistinct : (handles leases).Nodup)
    (hmem : ∀ j, j ∈ handles leases ↔ j ∈ handles s.leases ∧ j ≠ i) :
    Accounted cfg { s with
      guards := guards
      calls := s.calls.set i ⟨c.admitter, a, answered⟩
      leases := leases } where
  inflight := hturn.countP_set h.inflight answered
  calls b hb := by
    rcases List.mem_or_eq_of_mem_set hb with hold | rfl
    · exact h.calls b hold
    · exact hok
  distinct := hdistinct
  tabled j := by
    rw [hmem, h.tabled]
    by_cases hij : i = j
    · subst hij
      obtain ⟨hlt, -⟩ := List.getElem?_eq_some_iff.mp hturn.get
      simp [List.getElem?_set_self hlt, htabled]
    · simp [List.getElem?_set_ne hij, Ne.symm hij]

/-- **Every move keeps the account.** -/
theorem Move.accounted (hmove : Move cfg s new s') (h : Accounted cfg s) : Accounted cfg s' := by
  cases hmove with
  | reports => exact h
  | ticks => exact ⟨h.inflight, h.calls, h.distinct, h.tabled⟩
  | begins hknown hsound hcalls hinflight =>
    refine ⟨?_, ?_, h.distinct, ?_⟩
    · rw [hinflight, h.inflight, List.countP_append, List.countP_singleton]
      split <;> simp
    · intro b hb
      rcases List.mem_append.mp hb with hold | hnew
      · exact h.calls b hold
      · rw [List.mem_singleton.mp hnew]
        exact ⟨hsound, ⟨_, hknown⟩, fun _ => hcalls, fun h => by cases h⟩
    · -- The new admission has no entry yet.
      intro j
      rw [h.tabled]
      rcases Nat.lt_or_ge j s.calls.length with hlt | hge
      · rw [List.getElem?_append_left hlt]
      · rw [List.getElem?_eq_none hge, List.getElem?_append_right hge, List.getElem?_singleton]
        split <;> simp [Call.tabled]
  | settles hturn hcall hcalls =>
    have hold := h.calls _ (List.mem_of_getElem? hturn.get)
    have hnot := h.notMem_handles hturn.get hcall
    refine h.put hturn ⟨hturn.sound, hold.known, fun _ => hcalls, fun h => by cases h⟩ rfl
      h.distinct fun j => ⟨fun hj => ⟨hj, ?_⟩, And.left⟩
    rintro rfl
    exact hnot hj
  | denies hturn hcall hstage hdenied =>
    have hold := h.calls _ (List.mem_of_getElem? hturn.get)
    have hnot := h.notMem_handles hturn.get hcall
    refine h.put hturn ⟨hturn.sound, hold.known, ?_, fun _ => ⟨_, hstage⟩⟩ hdenied h.distinct
      fun j => ⟨fun hj => ⟨hj, ?_⟩, And.left⟩
    · intro hfalse
      cases hfalse
    · rintro rfl
      exact hnot hj
  | frees hlookup hturn hstage hreleased hcause =>
    have hold := h.calls _ (List.mem_of_getElem? hturn.get)
    refine h.put hturn ⟨hturn.sound, hold.known, ?_, fun _ => ⟨_, hstage⟩⟩ hreleased
      (nodup_handles_erase h.distinct _) (mem_handles_erase h.distinct hlookup)
    intro hfalse
    cases hfalse
  | @mints i c result leaseId hget hcall hstage hallowed hfresh =>
    have hold := h.calls _ (List.mem_of_getElem? hget)
    obtain ⟨hlt, hgetElem⟩ := List.getElem?_eq_some_iff.mp hget
    have htabled : Call.tabled { c with answered := true } = true := by
      have hunreleased : c.admission.unreleased = true := by
        rw [Unified.Admission.unreleased, hstage]
        simp [hallowed, hold.untouched hcall]
      simpa [Call.tabled] using hunreleased
    refine ⟨?_, ?_, ?_, ?_⟩
    · rw [h.inflight, List.countP_set hlt, hgetElem]
      have hpos : c.admission.holds = true → 0 < s.calls.countP (·.admission.holds) := fun hholds =>
        List.countP_pos_iff.mpr ⟨c, List.mem_of_getElem? hget, hholds⟩
      dsimp only
      split <;> simp_all
    · intro b hb
      rcases List.mem_or_eq_of_mem_set hb with hmem | rfl
      · exact h.calls b hmem
      · refine ⟨hold.sound, hold.known, ?_, fun _ => ⟨_, hstage⟩⟩
        intro hfalse
        cases hfalse
    · rw [handles_set_of_notMem hfresh, List.nodup_append']
      refine ⟨h.distinct, List.nodup_singleton _, ?_⟩
      rw [List.disjoint_singleton]
      exact h.notMem_handles hget hcall
    · intro j
      rw [handles_set_of_notMem hfresh, List.mem_append, h.tabled, List.mem_singleton]
      by_cases hij : i = j
      · subst hij
        simp [List.getElem?_set_self hlt, htabled]
      · simp [List.getElem?_set_ne hij, Ne.symm hij]
  | renews hlookup =>
    refine ⟨h.inflight, h.calls, ?_, ?_⟩
    · rw [handles_renew hlookup]
      exact h.distinct
    · intro j
      rw [handles_renew hlookup]
      exact h.tabled j

/-! ### The code of an admission -/

section Code

variable {axes : Unified.Config} {g : Guard} {a a' : Unified.Admission} {now : ℚ}

/-- From `a` to `a'` no `release` was called, and an admission without a lease gets none. -/
def Kept (a a' : Unified.Admission) : Prop :=
  a'.releaseCalls = a.releaseCalls ∧ (a.lease = none → a'.lease = none)

theorem leaseRelease_none (dropped : Bool) : (leaseRelease axes g none dropped now).2 = none := rfl

theorem kept_giveBack {stage : Stage} (h : Kept a a') :
    Kept a (giveBack axes g a' stage now).2 := by
  refine ⟨h.1, fun hlease => ?_⟩
  show (leaseRelease axes g a'.lease false now).2 = none
  rw [h.2 hlease, leaseRelease_none]

theorem kept_toCost (h : Kept a a') : Kept a (toCost axes a') := h

theorem kept_toAxes (h : Kept a a') : Kept a (toAxes axes a') := by
  unfold toAxes
  split
  · exact h
  · split
    · exact h
    · exact kept_toCost h

theorem kept_onRate (answer : Except String Decision) :
    Kept a (onRate axes g a answer now).2 := by
  unfold onRate
  split
  · exact kept_giveBack ⟨rfl, id⟩
  · dsimp only
    split
    · exact kept_giveBack ⟨rfl, id⟩
    · exact kept_toCost ⟨rfl, id⟩

theorem kept_onCost (answer : Except String Decision) :
    Kept a (onCost axes g a answer now).2 := by
  unfold onCost
  split
  · exact kept_giveBack ⟨rfl, id⟩
  · dsimp only
    split
    · exact kept_giveBack ⟨rfl, id⟩
    · exact ⟨rfl, id⟩

theorem kept_onFused (fused : Admission.Config) (answer : Except String (AxisReply × AxisReply)) :
    Kept a (onFused axes fused g a answer now).2 := by
  unfold onFused
  split
  · exact kept_giveBack ⟨rfl, id⟩
  · dsimp only
    split
    · exact kept_giveBack ⟨rfl, id⟩
    · exact ⟨rfl, id⟩

theorem toAxes_releaseCalls : (toAxes axes a).releaseCalls = a.releaseCalls :=
  (kept_toAxes ⟨rfl, id⟩).1

theorem begin_releaseCalls (s : Unified.State) (opts : Unified.AdmitOptions)
    (acquireAt shimAt releaseAt : ℚ) :
    (Unified.begin axes s opts acquireAt shimAt releaseAt).2.2.releaseCalls = 0 := by
  unfold Unified.begin
  dsimp only
  split
  · rfl
  · split
    · rfl
    · exact toAxes_releaseCalls

/-- An admission of an admitter without a guard never has a lease. -/
theorem beginUnguarded_spec (warmup : Option AdaptiveState) (opts : Unified.AdmitOptions) :
    (beginUnguarded axes warmup opts).2.lease = none ∧
      (beginUnguarded axes warmup opts).2.releaseCalls = 0 := by
  unfold beginUnguarded
  dsimp only
  split
  · exact ⟨rfl, rfl⟩
  · obtain ⟨hcalls, hlease⟩ : Kept ⟨opts, .awaitsRate, ⟨none, none, none⟩, none, 0⟩
        (toAxes axes ⟨opts, .awaitsRate, ⟨none, none, none⟩, none, 0⟩) := kept_toAxes ⟨rfl, id⟩
    exact ⟨hlease rfl, hcalls⟩

theorem onRelease_stage (result : UnifiedAdmission) (dropped : Bool) :
    (onRelease axes g a result dropped now).2.stage = a.stage := by
  unfold onRelease
  cases result.release <;> rfl

theorem onRelease_releaseCalls (result : UnifiedAdmission) (dropped : Bool) :
    (onRelease axes g a result dropped now).2.releaseCalls = a.releaseCalls + 1 := by
  unfold onRelease
  cases result.release <;> rfl

theorem onRelease_lease {result : UnifiedAdmission} {dropped : Bool} (h : a.lease = none) :
    (onRelease axes g a result dropped now).2.lease = none := by
  unfold onRelease
  dsimp only
  cases result.release with
  | noop => exact h
  | lease =>
    dsimp only
    rw [h, leaseRelease_none]

theorem onRelease_not_unreleased (result : UnifiedAdmission) (dropped : Bool) :
    (onRelease axes g a result dropped now).2.unreleased = false := by
  unfold Unified.Admission.unreleased
  rw [onRelease_stage, onRelease_releaseCalls]
  cases a.stage <;> simp

theorem onRelease_not_holds {result : UnifiedAdmission} (hok : a.Ok)
    (hstage : a.stage = .returned result) (dropped : Bool) :
    (onRelease axes g a result dropped now).2.holds = false := by
  have hcounted : Counted g a (onRelease axes g a result dropped now) :=
    counted_onRelease hok hstage dropped
  rw [hcounted.ok.holds_eq, onRelease_not_unreleased, Unified.Admission.inProgress,
    onRelease_stage, hstage]
  rfl

/-- What the code of an admission does to it and to a guard. -/
structure Codes (a : Unified.Admission)
    (code : Unified.Config → Guard → Guard × Unified.Admission) : Prop where
  counted : a.Ok → ∀ axes g, Counted g a (code axes g)
  keeps : a.Ok → ∀ axes g, (code axes g).2.holds = true → a.holds = true
  unleased : a.lease = none → ∀ axes g, (code axes g).2.lease = none

/-- The code behind an await of the admitter. -/
theorem codes_of_inProgress {code : Unified.Config → Guard → Guard × Unified.Admission}
    (hprogress : a.inProgress = true) (hcounted : a.Ok → ∀ axes g, Counted g a (code axes g))
    (hkept : ∀ axes g, Kept a (code axes g).2) : Codes a code where
  counted := hcounted
  keeps hok _ _ _ := (hok.inProgress hprogress).1
  unleased hlease axes g := (hkept axes g).2 hlease

theorem codes_onRelease {result : UnifiedAdmission} (hstage : a.stage = .returned result)
    (dropped : Bool) (now : ℚ) :
    Codes a fun axes g => onRelease axes g a result dropped now where
  counted hok _ _ := counted_onRelease hok hstage dropped
  keeps hok axes g h := by
    rw [onRelease_not_holds hok hstage dropped] at h
    cases h
  unleased hlease _ _ := onRelease_lease hlease

end Code

/-! ### A step is a sequence of moves -/

section Steps

variable [DecidableEq γ]

theorem inflight_update (guards : γ → Guard) (g : γ) (x : Guard) :
    inflight (Function.update guards g x)
      = inflight guards - (guards g).inflightCount + x.inflightCount :=
  Handles.sum_update guards (·.inflightCount) g x

omit [Fintype γ] in
/-- What the code leaves of an admission, whatever guard it runs against. -/
theorem onGuard_snd {P : Unified.Admission → Prop} {guards : γ → Guard} {admitter : Admitter γ}
    {code : Unified.Config → Guard → Guard × Unified.Admission}
    (h : ∀ axes g, P (code axes g).2) : P (onGuard cfg guards admitter code).2 := by
  unfold onGuard
  split
  · exact h _ _
  · exact h _ _

/-- Code that runs against the guard of its admitter is a turn. -/
theorem Codes.turn {c : Call γ} {i : ℕ} {code : Unified.Config → Guard → Guard × Unified.Admission}
    (h : Codes c.admission code) (hget : s.calls[i]? = some c)
    (hsound : Sound c.admitter c.admission) :
    Turn s i c (onGuard cfg s.guards c.admitter code).1
      (onGuard cfg s.guards c.admitter code).2 := by
  unfold onGuard
  split
  · rename_i g hg
    have hok := hsound.guarded (by rw [hg]; rfl)
    have hcounted := h.counted hok (c.admitter.withGuard cfg g) (s.guards g)
    refine ⟨hget, ⟨fun _ => hcounted.ok, fun hnone => ?_⟩, ?_, h.keeps hok _ _⟩
    · rw [hg] at hnone
      cases hnone
    · rw [inflight_update, hcounted.inflight]
      ring
  · rename_i hg
    have hnone := h.unleased (hsound.unguarded hg) c.admitter.axes (.new c.admitter.axes.guard 0)
    have hnot := not_holds_of_lease_eq_none hnone
    refine ⟨hget, ⟨fun hsome => ?_, fun _ => hnone⟩, ?_, fun hholds => ?_⟩
    · rw [hg] at hsome
      cases hsome
    · rw [hnot, not_holds_of_lease_eq_none (hsound.unguarded hg)]
      simp
    · rw [hnot] at hholds
      cases hholds

/-- The first part of `admit`, with a guard and without. -/
theorem admitBegin_spec (policy : String) (admitter : Admitter γ) (opts : Unified.AdmitOptions)
    (acquireAt shimAt releaseAt : ℚ) {guards : γ → Guard} {warmup : Option AdaptiveState}
    {a : Unified.Admission}
    (h : admitBegin cfg s policy admitter opts acquireAt shimAt releaseAt = (guards, warmup, a)) :
    Sound admitter a ∧ a.releaseCalls = 0 ∧
      inflight guards = inflight s.guards + if a.holds then 1 else 0 := by
  unfold admitBegin at h
  split at h
  · rename_i g hg
    obtain ⟨rfl, hout⟩ := Prod.mk.inj h
    obtain ⟨hok, hinflight⟩ := counted_begin (admitter.withGuard cfg g)
      ⟨s.guards g, s.warmup policy, [], ⟨none, none, none⟩⟩ opts acquireAt shimAt releaseAt
    obtain rfl : _ = a := congrArg Prod.snd hout
    refine ⟨⟨fun _ => hok, fun hnone => ?_⟩, begin_releaseCalls _ opts acquireAt shimAt releaseAt,
      ?_⟩
    · rw [hg] at hnone
      cases hnone
    · rw [inflight_update, hinflight]
      ring
  · rename_i hg
    obtain ⟨rfl, hout⟩ := Prod.mk.inj h
    obtain rfl : _ = a := congrArg Prod.snd hout
    obtain ⟨hlease, hcalls⟩ := @beginUnguarded_spec admitter.axes (s.warmup policy) opts
    refine ⟨⟨fun hsome => ?_, fun _ => hlease⟩, hcalls, ?_⟩
    · rw [hg] at hsome
      cases hsome
    · rw [not_holds_of_lease_eq_none hlease]
      simp

omit [DecidableEq γ] in
theorem chain_seenThrow (i : ℕ) (a : Unified.Admission) :
    Machine.Chain (Move cfg) s (seenThrow i a) s := by
  unfold seenThrow
  split
  · exact .single (.reports rfl)
  · exact .nil

/-- An admission goes on behind an await of its admitter. -/
theorem chain_advance (h : Accounted cfg s) {i : ℕ} {c : Call γ}
    {code : Unified.Config → Guard → Guard × Unified.Admission} (hget : s.calls[i]? = some c)
    (hprogress : c.admission.inProgress = true)
    (hcounted : c.admission.Ok → ∀ axes g, Counted g c.admission (code axes g))
    (hkept : ∀ axes g, Kept c.admission (code axes g).2) :
    Machine.Chain (Move cfg) s (advance cfg s i c false code).2
      (advance cfg s i c false code).1 := by
  have hok := h.calls c (List.mem_of_getElem? hget)
  have hcall : c.answered = false := by
    by_contra hanswered
    obtain ⟨result, hstage⟩ := hok.settled (Bool.eq_true_of_not_eq_false hanswered)
    rw [Unified.Admission.inProgress, hstage] at hprogress
    cases hprogress
  have hturn := @Codes.turn _ _ cfg _ _ _ _ _ (codes_of_inProgress hprogress hcounted hkept) hget
    hok.sound
  have hcalls : (onGuard cfg s.guards c.admitter code).2.releaseCalls = 0 :=
    (onGuard_snd (P := Kept c.admission) hkept).1.trans (hok.untouched hcall)
  exact (Machine.Chain.single (.settles hturn hcall hcalls)).append (chain_seenThrow i _)

/-- What a `release` of an admission that has returned does. -/
theorem turn_releaseCall (h : Accounted cfg s) {i : ℕ} {c : Call γ} {result : UnifiedAdmission}
    (hget : s.calls[i]? = some c) (hstage : c.admission.stage = .returned result)
    (dropped : Bool) (now : ℚ) :
    ∃ guards a, releaseCall cfg s i c result dropped now
        = ({ s with guards := guards, calls := s.calls.set i ⟨c.admitter, a, true⟩ },
          slotEvents i c.admission a) ∧
      Turn s i c guards a ∧ a.stage = .returned result ∧ a.unreleased = false := by
  have hok := h.calls c (List.mem_of_getElem? hget)
  refine ⟨_, _, Prod.ext rfl (List.append_nil _),
    (codes_onRelease hstage dropped now).turn hget hok.sound, ?_, ?_⟩
  · exact onGuard_snd (P := fun a => a.stage = .returned result) fun _ _ =>
      (onRelease_stage result dropped).trans hstage
  · exact onGuard_snd (P := fun a => a.unreleased = false) fun _ _ =>
      onRelease_not_unreleased result dropped

/-- The slot of an entry is given back. -/
theorem move_releaseEntry (h : Accounted cfg s) {leaseId : String} {e : Entry}
    (hlookup : s.leases.lookup leaseId = some e) (dropped : Bool) (now : ℚ) {cause : List Event}
    (hcause : cause = [] ∨ cause = [.swept leaseId s.clock] ∧ e.expiresAt ≤ s.clock) :
    Move cfg s ((releaseEntry cfg s leaseId e dropped now).2 ++ cause)
        (releaseEntry cfg s leaseId e dropped now).1 ∧
      (releaseEntry cfg s leaseId e dropped now).1.leases = s.leases.erase leaseId ∧
      (releaseEntry cfg s leaseId e dropped now).1.clock = s.clock := by
  have hhandle : e.call ∈ handles s.leases :=
    List.mem_map.mpr ⟨_, OrderedMap.mem_entries_of_lookup hlookup, rfl⟩
  obtain ⟨c, hget, htabled⟩ := (h.tabled e.call).mp hhandle
  obtain ⟨hanswered, -⟩ := Bool.and_eq_true_iff.mp htabled
  obtain ⟨result, hstage⟩ := (h.calls c (List.mem_of_getElem? hget)).settled hanswered
  obtain ⟨guards, a, hrelease, hturn, hstage', hreleased⟩ :=
    turn_releaseCall h hget hstage dropped now
  unfold releaseEntry
  rw [hget]
  dsimp only
  rw [hstage]
  dsimp only
  rw [hrelease]
  exact ⟨.frees hlookup hturn hstage' hreleased hcause, rfl, rfl⟩

/-- The code of `admit` behind its await. -/
theorem chain_onReturned (h : Accounted cfg s) {i : ℕ} {c : Call γ} {result : UnifiedAdmission}
    (hget : s.calls[i]? = some c) (hcall : c.answered = false)
    (hstage : c.admission.stage = .returned result) {draws : List String}
    (hreturned : onReturned cfg s i c result draws s.clock = some (s', new)) :
    Machine.Chain (Move cfg) s new s' := by
  unfold onReturned at hreturned
  split at hreturned
  · rename_i hallowed
    obtain ⟨leaseId, hdraw, hout⟩ := Option.map_eq_some_iff.mp hreturned
    have hfresh : leaseId ∉ s.leases.keys := by simpa using List.find?_some hdraw
    obtain ⟨rfl, rfl⟩ := Prod.mk.inj hout
    have hmint : Move cfg s [.minted leaseId s.clock] _ :=
      .mints hget hcall hstage hallowed hfresh
    exact .cons hmint (.single (.reports rfl))
  · obtain ⟨guards, a, hrelease, hturn, hstage', hdenied⟩ :=
      turn_releaseCall h hget hstage false s.clock
    obtain ⟨rfl, rfl⟩ := Prod.mk.inj (Option.some.inj hreturned)
    rw [hrelease]
    exact .cons (.denies hturn hcall hstage' hdenied) (.single (.reports rfl))

omit [DecidableEq γ] in
/-- The loop of `heartbeat`. -/
theorem chain_renewAll (ids : List String) : ∀ s : State γ,
    Machine.Chain (Move cfg) s
      ((renewAll (s.clock + cfg.leaseTtlMs) ids s.leases).2.1.map (Event.renewed · s.clock))
      { s with leases := (renewAll (s.clock + cfg.leaseTtlMs) ids s.leases).1 } := by
  induction ids with
  | nil => exact fun s => .nil
  | cons id ids ih =>
    intro s
    rw [renewAll]
    cases hlookup : s.leases.lookup id with
    | none => exact ih s
    | some e =>
      have hrest := ih { s with
        leases := s.leases.set id { e with expiresAt := s.clock + cfg.leaseTtlMs } }
      exact .cons (.renews hlookup) hrest

/-- The loop of `sweep`. -/
theorem chain_sweepAll (releaseAt : String → ℚ) (rest : List (String × Entry)) :
    ∀ s : State γ, Accounted cfg s → (rest.map Prod.fst).Nodup →
      (∀ e ∈ rest, s.leases.lookup e.1 = some e.2) →
        Machine.Chain (Move cfg) s (sweepAll cfg s.clock releaseAt rest s).2
          (sweepAll cfg s.clock releaseAt rest s).1 := by
  induction rest with
  | nil => exact fun s _ _ _ => .nil
  | cons entry rest ih =>
    obtain ⟨leaseId, e⟩ := entry
    intro s h hnodup hlookup
    rw [List.map_cons, List.nodup_cons] at hnodup
    rw [sweepAll]
    split
    · rename_i hexpired
      obtain ⟨hmove, hleases, hclock⟩ := move_releaseEntry h (hlookup _ List.mem_cons_self) true
        (releaseAt leaseId) (.inr ⟨rfl, hexpired⟩)
      have hrest := ih _ (hmove.accounted h) hnodup.2 fun x hx => by
        have hne : leaseId ≠ x.1 := fun hid =>
          hnodup.1 (List.mem_map.mpr ⟨x, hx, hid.symm⟩)
        rw [hleases, OrderedMap.lookup_erase_of_ne _ hne]
        exact hlookup x (List.mem_cons_of_mem _ hx)
      rw [hclock] at hrest
      dsimp only
      rw [← List.singleton_append, ← List.append_assoc]
      exact .cons hmove hrest
    · exact ih s h hnodup.2 fun x hx => hlookup x (List.mem_cons_of_mem _ hx)

/-- **A step is a sequence of moves.** -/
theorem step_chain (h : Accounted cfg s) {act : Act} (hclock : ClockForward s act)
    (hstep : step cfg s act = some (s', new)) : Machine.Chain (Move cfg) s new s' := by
  cases act with
  | admitCall policy key opts acquireAt shimAt releaseAt =>
    rw [step] at hstep
    split at hstep
    · obtain ⟨rfl, rfl⟩ := Prod.mk.inj (Option.some.inj hstep)
      exact .single (.reports rfl)
    · rename_i admitter hresolve
      obtain ⟨rfl, rfl⟩ := Prod.mk.inj (Option.some.inj hstep)
      have hknown : cfg.admitters policy = some admitter := by
        unfold resolveAdmitter at hresolve
        split at hresolve
        · cases hresolve
          assumption
        · split at hresolve <;> cases hresolve
      obtain ⟨hsound, hcalls, hinflight⟩ := @admitBegin_spec _ _ cfg s _ policy
        admitter ⟨key, opts.cost.getD 1, opts.value.getD 1, opts.hold.getD 0⟩ acquireAt shimAt
        releaseAt _ _ _ rfl
      exact .single (.begins hknown hsound hcalls hinflight)
  | rateSettles i answer now =>
    obtain ⟨c, hget, hstep⟩ := Option.bind_eq_some_iff.mp hstep
    split at hstep
    · rename_i hstage
      obtain ⟨rfl, rfl⟩ := Prod.mk.inj (Option.some.inj hstep)
      have hprogress : c.admission.inProgress = true := by
        rw [Unified.Admission.inProgress, hstage]
      exact chain_advance h hget hprogress (fun hok _ _ => counted_onRate hok hprogress answer)
        fun _ _ => kept_onRate answer
    · cases hstep
  | costSettles i answer now =>
    obtain ⟨c, hget, hstep⟩ := Option.bind_eq_some_iff.mp hstep
    split at hstep
    · rename_i hstage
      obtain ⟨rfl, rfl⟩ := Prod.mk.inj (Option.some.inj hstep)
      have hprogress : c.admission.inProgress = true := by
        rw [Unified.Admission.inProgress, hstage]
      exact chain_advance h hget hprogress (fun hok _ _ => counted_onCost hok hprogress answer)
        fun _ _ => kept_onCost answer
    · cases hstep
  | fusedSettles i answer now =>
    obtain ⟨c, hget, hstep⟩ := Option.bind_eq_some_iff.mp hstep
    split at hstep
    · rename_i fused hstage _
      obtain ⟨rfl, rfl⟩ := Prod.mk.inj (Option.some.inj hstep)
      have hprogress : c.admission.inProgress = true := by
        rw [Unified.Admission.inProgress, hstage]
      exact chain_advance h hget hprogress
        (fun hok _ _ => counted_onFused fused hok hprogress answer)
          fun _ _ => kept_onFused fused answer
    · cases hstep
  | resume i draws now =>
    obtain ⟨c, hget, hstep⟩ := Option.bind_eq_some_iff.mp hstep
    split at hstep
    · rename_i hcall hstage
      have htick : Move cfg s [] { s with clock := now } := .ticks hclock
      exact .cons htick (chain_onReturned (htick.accounted h) hget hcall hstage hstep)
    · cases hstep
  | release leaseId dropped now =>
    rw [step] at hstep
    split at hstep
    · rename_i e hlookup
      obtain ⟨hmove, -, -⟩ := move_releaseEntry h hlookup dropped now (.inl rfl)
      rw [List.append_nil, Option.some.inj hstep] at hmove
      exact .single hmove
    · obtain ⟨rfl, rfl⟩ := Prod.mk.inj (Option.some.inj hstep)
      exact .nil
  | heartbeat leaseIds now =>
    obtain ⟨rfl, rfl⟩ := Prod.mk.inj (Option.some.inj hstep)
    have htick : Move cfg s [] { s with clock := now } := .ticks hclock
    exact (Machine.Chain.cons htick (chain_renewAll leaseIds { s with clock := now })).append
      (.single (.reports rfl))
  | sweep now releaseAt =>
    have htick : Move cfg s [] { s with clock := now } := .ticks hclock
    have hsweep := chain_sweepAll releaseAt s.leases.entries { s with clock := now }
      (htick.accounted h) s.leases.nodup fun e he => OrderedMap.lookup_of_mem_entries he
    dsimp only at hsweep
    rw [Option.some.inj hstep] at hsweep
    exact .cons htick hsweep

end Steps

/-! ### Slots are given back once -/

namespace Event

/-- A slot is taken. -/
def isGranted : Event → Bool
  | .granted _ => true
  | _ => false

/-- A slot goes back. -/
def isGaveBack : Event → Bool
  | .gaveBack _ => true
  | _ => false

/-- It is not about a slot. -/
def slotless (e : Event) : Bool := !e.isGranted && !e.isGaveBack

end Event

/-- Each slot has gone back at most once, and not yet where it is held or was never taken. -/
structure Ledger (s : State γ) (log : List Event) : Prop where
  once : ∀ i, log.count (.gaveBack i) + (if s.calls[i]?.all (·.admission.holds) then 1 else 0) ≤ 1
  balance : inflight s.guards = log.countP Event.isGranted - log.countP Event.isGaveBack

theorem ledger_new (cfg : Config γ) (now : ℚ) : Ledger (.new cfg now) [] where
  once i := by simp [State.new]
  balance := Finset.sum_eq_zero fun _ _ => rfl

variable {log : List Event}

theorem count_gaveBack_of_slotless {l : List Event} (h : ∀ e ∈ l, e.slotless = true) (i : ℕ) :
    l.count (.gaveBack i) = 0 := by
  refine List.count_eq_zero_of_not_mem fun hmem => ?_
  have hslotless := h _ hmem
  cases hslotless

theorem countP_of_slotless {l : List Event} (h : ∀ e ∈ l, e.slotless = true) :
    l.countP Event.isGranted = 0 ∧ l.countP Event.isGaveBack = 0 := by
  refine ⟨List.countP_eq_zero.mpr fun e he => ?_, List.countP_eq_zero.mpr fun e he => ?_⟩
  · have hslotless := h e he
    cases e <;> simp_all [Event.slotless, Event.isGranted, Event.isGaveBack]
  · have hslotless := h e he
    cases e <;> simp_all [Event.slotless, Event.isGranted, Event.isGaveBack]

/-- A move that is not about slots. -/
theorem Ledger.frame (h : Ledger s log) (hnew : ∀ e ∈ new, e.slotless = true)
    (hguards : inflight s'.guards = inflight s.guards)
    (hcalls : ∀ i : ℕ, s'.calls[i]?.all (·.admission.holds) = s.calls[i]?.all (·.admission.holds)) :
    Ledger s' (log ++ new) where
  once i := by
    rw [List.count_append, count_gaveBack_of_slotless hnew, hcalls]
    exact h.once i
  balance := by
    obtain ⟨hgranted, hgaveBack⟩ := countP_of_slotless hnew
    rw [hguards, h.balance, List.countP_append, List.countP_append, hgranted, hgaveBack]
    rfl

/-- A turn of an admission. -/
theorem Ledger.put (h : Ledger s log) {i : ℕ} {c : Call γ} {guards : γ → Guard}
    {a : Unified.Admission} {answered : Bool} {leases : OrderedMap String Entry}
    (hturn : Turn s i c guards a) :
    Ledger { s with
        guards := guards
        calls := s.calls.set i ⟨c.admitter, a, answered⟩
        leases := leases }
      (log ++ slotEvents i c.admission a) where
  once j := by
    obtain ⟨hlt, -⟩ := List.getElem?_eq_some_iff.mp hturn.get
    have honce := h.once j
    have hkeeps := hturn.keeps
    rw [List.count_append]
    unfold slotEvents
    by_cases hij : i = j
    · subst hij
      rw [hturn.get] at honce
      dsimp only
      rw [List.getElem?_set_self hlt]
      cases hc : c.admission.holds <;> cases ha : a.holds <;> simp_all
    · dsimp only
      rw [List.getElem?_set_ne hij]
      split <;> simpa [hij] using honce
  balance := by
    have hkeeps := hturn.keeps
    rw [hturn.inflight, h.balance, List.countP_append, List.countP_append]
    unfold slotEvents
    cases hc : c.admission.holds <;> cases ha : a.holds <;>
      simp_all [Event.isGranted, Event.isGaveBack]
    omega

theorem Move.ledger (hmove : Move cfg s new s') (h : Ledger s log) : Ledger s' (log ++ new) := by
  cases hmove with
  | @reports e hreports =>
    refine h.frame (fun e' he' => ?_) rfl fun _ => rfl
    rw [List.mem_singleton.mp he']
    cases e with
    | granted | gaveBack => cases hreports
    | _ => rfl
  | ticks => exact h.frame (fun _ he => absurd he List.not_mem_nil) rfl fun _ => rfl
  | @begins policy admitter guards warmup a hknown hsound hcalls hinflight =>
    have hlease : a.holds = true → a.lease.isSome = true := by
      unfold Unified.Admission.holds
      cases a.lease <;> simp
    refine ⟨fun j => ?_, ?_⟩
    · have honce := h.once j
      rw [List.count_append]
      unfold beginEvents
      rcases Nat.lt_trichotomy j s.calls.length with hlt | rfl | hgt
      · rw [List.getElem?_append_left hlt]
        have hne : s.calls.length ≠ j := Nat.ne_of_gt hlt
        split <;> [split; skip] <;> simpa [hne] using honce
      · rw [List.getElem?_eq_none le_rfl] at honce
        rw [List.getElem?_append_right le_rfl, Nat.sub_self]
        cases hl : a.lease.isSome <;> cases ha : a.holds <;> simp_all
      · rw [List.getElem?_eq_none hgt.le] at honce
        have hnone : (s.calls ++ [(⟨admitter, a, false⟩ : Call γ)])[j]? = none :=
          List.getElem?_eq_none (by rw [List.length_append]; exact hgt)
        have hne : s.calls.length ≠ j := Nat.ne_of_lt hgt
        dsimp only
        rw [hnone]
        split <;> [split; skip] <;> simpa [hne] using honce
    · rw [hinflight, h.balance, List.countP_append, List.countP_append]
      unfold beginEvents
      cases hl : a.lease.isSome <;> cases ha : a.holds <;>
        simp_all [Event.isGranted, Event.isGaveBack, List.countP_cons]
      all_goals omega
  | settles hturn => exact h.put hturn
  | denies hturn => exact h.put hturn
  | frees hlookup hturn hstage hreleased hcause =>
    rw [← List.append_assoc]
    refine (h.put hturn).frame (fun e he => ?_) rfl fun _ => rfl
    rcases hcause with rfl | ⟨rfl, -⟩
    · cases he
    · rw [List.mem_singleton.mp he]
      rfl
  | @mints i c result leaseId hget =>
    refine h.frame (fun e he => ?_) rfl fun j => ?_
    · rw [List.mem_singleton.mp he]
      rfl
    · obtain ⟨hlt, hgetElem⟩ := List.getElem?_eq_some_iff.mp hget
      by_cases hij : i = j
      · subst hij
        dsimp only
        rw [List.getElem?_set_self hlt, hget]
        rfl
      · dsimp only
        rw [List.getElem?_set_ne hij]
  | renews =>
    refine h.frame (fun e he => ?_) rfl fun _ => rfl
    rw [List.mem_singleton.mp he]
    rfl

/-! ### Deadlines -/

/-- The lease was minted or renewed at `t`. -/
def Extended (log : List Event) (leaseId : String) (t : ℚ) : Prop :=
  .minted leaseId t ∈ log ∨ .renewed leaseId t ∈ log

theorem extended_append {l l' : List Event} {leaseId : String} {t : ℚ} :
    Extended (l ++ l') leaseId t ↔ Extended l leaseId t ∨ Extended l' leaseId t := by
  simp only [Extended, List.mem_append]
  tauto

/-- An event that is about no deadline. -/
def Event.untimed : Event → Bool
  | .minted .. | .renewed .. | .swept .. => false
  | _ => true

/-- A lease is swept only when it has not been minted or renewed for the time it lives. -/
def SweptInTime (ttl : ℚ) (pre : List Event) (e : Event) : Prop :=
  ∀ leaseId now, e = .swept leaseId now → ∀ t, Extended pre leaseId t → t + ttl ≤ now

/-- The deadlines are those of the last extensions, which are past. -/
structure Timed (cfg : Config γ) (s : State γ) (log : List Event) : Prop where
  past : ∀ leaseId t, Extended log leaseId t → t ≤ s.clock
  deadline : ∀ leaseId e, s.leases.lookup leaseId = some e → ∀ t, Extended log leaseId t →
    t + cfg.leaseTtlMs ≤ e.expiresAt
  swept : Machine.EachAt (SweptInTime cfg.leaseTtlMs) log

omit [Fintype γ] in
theorem timed_new (cfg : Config γ) (now : ℚ) : Timed cfg (.new cfg now) [] where
  past _ _ h := by simp [Extended] at h
  deadline _ _ _ _ h := by simp [Extended] at h
  swept := Machine.eachAt_nil _

theorem not_extended_of_untimed {l : List Event} (h : ∀ e ∈ l, e.untimed = true) (leaseId : String)
    (t : ℚ) : ¬ Extended l leaseId t := by
  rintro (hminted | hrenewed)
  · cases h _ hminted
  · cases h _ hrenewed

omit [Fintype γ] in
/-- A move that is not about deadlines. -/
theorem Timed.frame (h : Timed cfg s log) (hnew : ∀ e ∈ new, e.untimed = true)
    (hclock : s.clock ≤ s'.clock)
    (hleases : ∀ id e, s'.leases.lookup id = some e → s.leases.lookup id = some e) :
    Timed cfg s' (log ++ new) where
  past leaseId t hext := by
    rcases extended_append.mp hext with hold | hnow
    · exact (h.past leaseId t hold).trans hclock
    · exact absurd hnow (not_extended_of_untimed hnew leaseId t)
  deadline leaseId e hlookup t hext := by
    rcases extended_append.mp hext with hold | hnow
    · exact h.deadline leaseId e (hleases leaseId e hlookup) t hold
    · exact absurd hnow (not_extended_of_untimed hnew leaseId t)
  swept := h.swept.append fun e he pre leaseId now heq => by
    rw [heq] at he
    cases hnew _ he

omit [Fintype γ] in
/-- A lease is minted or renewed. -/
theorem Timed.extend (h : Timed cfg s log) {leaseId : String} {e : Entry} {ev : Event}
    (hev : ev = .minted leaseId s.clock ∨ ev = .renewed leaseId s.clock)
    (hclock : s'.clock = s.clock) (hdeadline : e.expiresAt = s.clock + cfg.leaseTtlMs)
    (hleases : s'.leases = s.leases.set leaseId e) : Timed cfg s' (log ++ [ev]) where
  past id t hext := by
    rw [hclock]
    rcases extended_append.mp hext with hold | hnow
    · exact h.past id t hold
    · rcases hev with rfl | rfl <;> simp [Extended] at hnow <;> exact hnow.2.le
  deadline id e' hlookup t hext := by
    rw [hleases, OrderedMap.lookup_set] at hlookup
    split_ifs at hlookup with hid
    · obtain rfl := Option.some.inj hlookup
      have ht : t ≤ s.clock := by
        rcases extended_append.mp hext with hold | hnow
        · exact h.past id t hold
        · rcases hev with rfl | rfl <;> simp [Extended] at hnow <;> exact hnow.2.le
      rw [hdeadline]
      exact add_le_add_left ht _
    · rcases extended_append.mp hext with hold | hnow
      · exact h.deadline id e' hlookup t hold
      · rcases hev with rfl | rfl <;> simp [Extended] at hnow <;> exact absurd hnow.1.symm hid
  swept := by
    refine h.swept.append fun e' he' pre id now heq => ?_
    rw [List.mem_singleton.mp he'] at heq
    rcases hev with rfl | rfl <;> cases heq

theorem untimed_slotEvents (i : ℕ) (a a' : Unified.Admission) :
    ∀ e ∈ slotEvents i a a', e.untimed = true := by
  unfold slotEvents
  split <;> simp [Event.untimed]

theorem untimed_beginEvents (i : ℕ) (a : Unified.Admission) :
    ∀ e ∈ beginEvents i a, e.untimed = true := by
  unfold beginEvents
  split
  · split <;> simp [Event.untimed]
  · simp

theorem Move.timed (hmove : Move cfg s new s') (h : Timed cfg s log) :
    Timed cfg s' (log ++ new) := by
  cases hmove with
  | @reports e hreports =>
    refine h.frame (fun e' he' => ?_) le_rfl fun _ _ => id
    rw [List.mem_singleton.mp he']
    cases e with
    | minted | renewed | swept => cases hreports
    | _ => rfl
  | ticks hclock => exact h.frame (fun _ he => absurd he List.not_mem_nil) hclock fun _ _ => id
  | begins => exact h.frame (untimed_beginEvents _ _) le_rfl fun _ _ => id
  | settles => exact h.frame (untimed_slotEvents _ _ _) le_rfl fun _ _ => id
  | denies => exact h.frame (untimed_slotEvents _ _ _) le_rfl fun _ _ => id
  | mints => exact h.extend (.inl rfl) rfl rfl rfl
  | renews => exact h.extend (.inr rfl) rfl rfl rfl
  | @frees leaseId e c guards a result cause hlookup hturn hstage hreleased hcause =>
    have herased : ∀ id x, (s.leases.erase leaseId).lookup id = some x →
        s.leases.lookup id = some x := by
      intro id x hx
      rw [OrderedMap.lookup_erase] at hx
      split_ifs at hx
      exact hx
    have hfree : Timed cfg { s with
        guards := guards
        calls := s.calls.set e.call ⟨c.admitter, a, true⟩
        leases := s.leases.erase leaseId } (log ++ slotEvents e.call c.admission a) :=
      h.frame (untimed_slotEvents _ _ _) le_rfl herased
    rw [← List.append_assoc]
    rcases hcause with rfl | ⟨rfl, hexpired⟩
    · rwa [List.append_nil]
    · have hnot : ∀ id t, ¬ Extended [.swept leaseId s.clock] id t := by simp [Extended]
      refine ⟨fun id t hext => ?_, fun id x hx t hext => ?_, Machine.eachAt_concat.mpr
        ⟨hfree.swept, ?_⟩⟩
      · exact hfree.past id t ((extended_append.mp hext).resolve_right (hnot id t))
      · exact hfree.deadline id x hx t ((extended_append.mp hext).resolve_right (hnot id t))
      · intro id now heq t hext
        obtain ⟨rfl, rfl⟩ := Event.swept.inj heq
        have hold := (extended_append.mp hext).resolve_right
          (not_extended_of_untimed (untimed_slotEvents _ _ _) _ t)
        exact (h.deadline _ e hlookup t hold).trans hexpired

/-! ### The theorem -/

/-- The admission of an entry has a guard. -/
def State.guarded (s : State γ) (e : Entry) : Bool := s.calls[e.call]?.any Call.guarded

omit [Fintype γ] in
/-- An admission that has returned or failed holds a slot just if it has an entry and a guard. -/
theorem Call.Ok.holds_eq {c : Call γ} (h : c.Ok cfg) (hquiet : c.inProgress = false) :
    c.admission.holds = (c.tabled && c.guarded) := by
  cases hconc : c.admitter.concurrency with
  | none =>
    rw [not_holds_of_lease_eq_none (h.sound.unguarded hconc), Call.guarded, hconc]
    simp
  | some g =>
    have hok := h.sound.guarded (by rw [hconc]; rfl)
    rw [hok.holds_eq, Call.guarded, hconc, Call.tabled]
    unfold Call.inProgress at hquiet
    unfold Unified.Admission.unreleased Unified.Admission.inProgress
    cases hanswered : c.answered with
    | true =>
      obtain ⟨result, hstage⟩ := h.settled hanswered
      simp [hstage]
    | false => cases hstage : c.admission.stage <;> simp_all

/-- With no admission in progress, the guards count the entries whose admissions have a guard. -/
theorem Accounted.inflight_eq (h : Accounted cfg s) (hquiet : ∀ c ∈ s.calls, c.inProgress = false) :
    LeaseTable.inflight s.guards = s.leases.entries.countP fun e => s.guarded e.2 := by
  have hholds : ∀ {i : ℕ} {c : Call γ}, s.calls[i]? = some c →
      c.admission.holds = (c.tabled && c.guarded) := fun hget =>
    (h.calls _ (List.mem_of_getElem? hget)).holds_eq (hquiet _ (List.mem_of_getElem? hget))
  rw [h.inflight]
  congr 1
  refine Handles.countP_eq_of_handles h.distinct ?_ ?_
  · intro e he hguarded
    obtain ⟨c, hget, htabled⟩ := (h.tabled e.2.call).mp (List.mem_map.mpr ⟨e, he, rfl⟩)
    rw [State.guarded, hget] at hguarded
    exact ⟨c, hget, by rw [hholds hget, htabled]; exact hguarded⟩
  · intro i c hget hc
    rw [hholds hget, Bool.and_eq_true] at hc
    obtain ⟨e, he, rfl⟩ := List.mem_map.mp ((h.tabled i).mpr ⟨c, hget, hc.1⟩)
    exact ⟨e, he, by rw [State.guarded, hget]; exact hc.2, rfl⟩

/-- What a heartbeat reports. -/
theorem renewAll_spec (deadline : ℚ) (ids : List String) : ∀ leases : OrderedMap String Entry,
    (renewAll deadline ids leases).1.keys = leases.keys ∧
      (renewAll deadline ids leases).2.1 = ids.filter (· ∈ leases.keys) ∧
      (renewAll deadline ids leases).2.2 = ids.filter (· ∉ leases.keys) := by
  induction ids with
  | nil => exact fun _ => ⟨rfl, rfl, rfl⟩
  | cons id ids ih =>
    intro leases
    rw [renewAll]
    cases hlookup : leases.lookup id with
    | none =>
      have hid := OrderedMap.lookup_eq_none.mp hlookup
      obtain ⟨hkeys, hlive, hreclaimed⟩ := ih leases
      exact ⟨hkeys, by simp [hlive, hid], by simp [hreclaimed, hid]⟩
    | some e =>
      have hid := OrderedMap.mem_keys_of_lookup hlookup
      obtain ⟨hkeys, hlive, hreclaimed⟩ := ih (leases.set id { e with expiresAt := deadline })
      rw [OrderedMap.keys_set_of_mem hid] at hkeys hlive hreclaimed
      exact ⟨hkeys, by simp [hlive, hid], by simp [hreclaimed, hid]⟩

/-- All that holds in a reachable state. -/
structure Inv (cfg : Config γ) (s : State γ) (log : List Event) : Prop where
  accounted : Accounted cfg s
  ledger : Ledger s log
  timed : Timed cfg s log

variable [DecidableEq γ]

theorem run_inv {start : ℚ} (h : (step cfg).Run ClockForward (.new cfg start) log s) :
    Inv cfg s log := by
  refine h.invariant (I := Inv cfg) ⟨accounted_new cfg start, ledger_new cfg start,
    timed_new cfg start⟩ fun s log act s' new hinv hclock hstep => ?_
  exact (step_chain hinv.accounted hclock hstep).invariant (I := Inv cfg)
    (fun s log s' new hinv hmove => ⟨hmove.accounted hinv.accounted, hmove.ledger hinv.ledger,
      hmove.timed hinv.timed⟩) hinv

/-- **The table and the guards**, in every run in which the clock of the service does not go back.
With no admission in progress the in-flight count is the number of leases just if each of them is of
an admitter with a guard. A slot goes back at most once, and the in-flight count is what was granted
and did not go back. A lease is swept only `leaseTtlMs` after it was minted or last renewed. A
heartbeat reports as live the ids that are in the table. -/
theorem leases_accounted {start : ℚ}
    (h : (step cfg).Run ClockForward (.new cfg start) log s) :
    ((∀ c ∈ s.calls, c.inProgress = false) →
      (inflight s.guards = s.leases.size ↔ ∀ e ∈ s.leases.entries, s.guarded e.2 = true) ∧
      ((∀ policy admitter, cfg.admitters policy = some admitter →
        admitter.concurrency.isSome = true) → inflight s.guards = s.leases.size)) ∧
    (∀ i, log.count (.gaveBack i) ≤ 1) ∧
    inflight s.guards = log.countP Event.isGranted - log.countP Event.isGaveBack ∧
    (∀ pre leaseId now post, log = pre ++ .swept leaseId now :: post →
      ∀ t, Extended pre leaseId t → t + cfg.leaseTtlMs ≤ now) ∧
    ∀ leaseIds now s' new, step cfg s (.heartbeat leaseIds now) = some (s', new) →
      Event.beat ⟨leaseIds.filter (· ∈ s.leases.keys), leaseIds.filter (· ∉ s.leases.keys),
          now + cfg.leaseTtlMs⟩ ∈ new ∧
        s'.leases.keys = s.leases.keys := by
  have hinv := run_inv h
  refine ⟨fun hquiet => ?_, fun i => ?_, hinv.ledger.balance, ?_, ?_⟩
  · have hiff : inflight s.guards = s.leases.size ↔
        ∀ e ∈ s.leases.entries, s.guarded e.2 = true := by
      rw [hinv.accounted.inflight_eq hquiet, Nat.cast_inj]
      exact List.countP_eq_length
    refine ⟨hiff, fun hall => hiff.mpr fun e he => ?_⟩
    obtain ⟨c, hget, -⟩ := (hinv.accounted.tabled e.2.call).mp (List.mem_map.mpr ⟨e, he, rfl⟩)
    obtain ⟨policy, hknown⟩ := (hinv.accounted.calls c (List.mem_of_getElem? hget)).known
    rw [State.guarded, hget]
    exact hall policy c.admitter hknown
  · have honce := hinv.ledger.once i
    omega
  · intro pre leaseId now post hlog
    exact hinv.timed.swept pre _ post hlog leaseId now rfl
  · intro leaseIds now s' new hstep
    obtain ⟨rfl, rfl⟩ := Prod.mk.inj (Option.some.inj hstep)
    obtain ⟨hkeys, hlive, hreclaimed⟩ := renewAll_spec (now + cfg.leaseTtlMs) leaseIds s.leases
    refine ⟨List.mem_append_right _ (List.mem_singleton.mpr ?_), hkeys⟩
    rw [hlive, hreclaimed]

/-- An admitter of a rate limiter, or of none. -/
def marginal (rate : Bool) : Unified.Config where
  guard := .defaults
  rate := rate
  cost := false
  fused := none
  duals := none
  adaptive := none
  solve _ := .error "unused"

/-- Two policies with one guard, the second behind a rate limiter as well. -/
def oneGuard : Config (Fin 1) where
  guards _ := .defaults
  admitters policy :=
    if policy = "jobs" then some ⟨marginal false, some 0⟩
    else if policy = "api" then some ⟨marginal true, some 0⟩
    else none
  order := ["jobs", "api"]
  leaseTtlMs := 2000

/-- Three slots are taken. One is released twice, one is kept alive and one is swept. -/
def threeLeases : List Act :=
  [.admitCall "jobs" "" ⟨none, none, none⟩ 0 0 0, .resume 0 ["a0"] 0,
    .admitCall "api" "k" ⟨none, none, none⟩ 1 1 1, .rateSettles 1 (.ok (answer true)) 2,
    .resume 1 ["a0", "b1"] 2, .admitCall "jobs" "" ⟨none, none, none⟩ 3 3 3, .resume 2 ["c2"] 3,
    .release "a0" false 10, .release "a0" false 11, .heartbeat ["a0", "b1"] 1500,
    .sweep 2500 fun _ => 2500]

theorem leases_accounted_three :
    inflight (((step oneGuard).exec (.new oneGuard 0) threeLeases).get
        (by decide +kernel)).1.guards
      = (((step oneGuard).exec (.new oneGuard 0) threeLeases).get
        (by decide +kernel)).1.leases.size :=
  ((leases_accounted (Machine.run_of_isSome (by decide +kernel) (by decide +kernel))).1
    (by decide +kernel)).1.mpr (by decide +kernel)

/-- One policy, which is a rate limit alone. -/
def rateOnly : Config Empty where
  guards g := g.elim
  admitters policy := if policy = "api" then some ⟨marginal true, none⟩ else none
  order := ["api"]
  leaseTtlMs := 2000

/-- A request is admitted and answered. -/
def oneAdmission : List Act :=
  [.admitCall "api" "k" ⟨none, none, none⟩ 0 0 0, .rateSettles 0 (.ok (answer true)) 1,
    .resume 0 ["a0"] 1]

/-- An admission that holds no slot is in the table. -/
theorem lease_without_slot : ∃ s log, (step rateOnly).Run ClockForward (.new rateOnly 0) log s ∧
    (∀ c ∈ s.calls, c.inProgress = false) ∧ inflight s.guards = 0 ∧ s.leases.size = 1 := by
  exact ⟨_, _, Machine.run_of_isSome (l := oneAdmission) (by decide +kernel) (by decide +kernel),
    by decide +kernel, by decide +kernel, by decide +kernel⟩

end ThrottleKit.LeaseTable
