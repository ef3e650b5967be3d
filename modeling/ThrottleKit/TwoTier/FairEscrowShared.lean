import ThrottleKit.TwoTier.FairEscrowLimit

/-!
# Weighted fair escrows around one store

Each process admits in a window what it has leased in it, and the store charges no window past the
limit. For that a granted lease has to be added to the effective limit of the window it was charged
to. `checkL2` adds it to the one the process is in when it resumes, so after a roll the units of one
window are spent in the next (`late_lease_exceeds_limit`).

## Main definitions

* `Leasing` — the effective limit and the replies on their way are covered by what was charged
* `SharedStep` — the conditions on a step

## Main results

* `Leasing.move` — every move without a lapse keeps the cover
* `shared_admitted_le_limit` — the bounds over a run
-/

namespace ThrottleKit.FairEscrow

open Machine Purse Rounding

section Rounded

variable [Rounding] {b : Budget}

/-! ### What has been leased -/

/-- What a granted reply on its way holds for the window starting at `w`. -/
def Call.repliedTo (b : Budget) (w : ℚ) (c : Call) : ℚ :=
  match c.stage with
  | .replied leased =>
    if leased.allowed ∧ startOf b.windowMs c.check.now = w then c.leaseAmount else 0
  | .requested => 0

/-- What all granted replies on their way hold for the window starting at `w`. -/
def inFlight (b : Budget) (s : Process) (w : ℚ) : ℚ := s.calls.sum fun _ c => c.repliedTo b w

/-- What a process may admit in the window starting at `w`, or has admitted in it. -/
def reached (b : Budget) (s : Process) (log : List Event) (w : ℚ) : ℚ :=
  if s.windowStart = w then s.lEffective else admittedIn b w log

/-- A suspended check is of the window of the process, where it holds its tenant's entry, or of an
earlier one. -/
structure Call.Holds (b : Budget) (s : Process) (c : Call) : Prop where
  le_window : (startOf b.windowMs c.check.now : ℚ) ≤ s.windowStart
  own : s.windowStart = (startOf b.windowMs c.check.now : ℚ) →
    s.tenants.lookup c.check.tenant = some c.check.entry

/-- The effective limit of a process, and what its past windows admitted, are covered by what the
store charged to those windows. -/
structure Leasing (b : Budget) (s : Process) (log : List Event) : Prop where
  counted : Counted b s log
  holds : ∀ id c, s.calls.lookup id = some c → c.Holds b s
  covered : ∀ w, reached b s log w + inFlight b s w ≤ chargedIn b w log

theorem Call.repliedTo_nonneg (w : ℚ) (c : Call) : 0 ≤ c.repliedTo b w := by
  unfold Call.repliedTo
  split
  · split
    · exact c.leaseAmount_pos.le
    · exact le_rfl
  · exact le_rfl

theorem inFlight_nonneg (s : Process) (w : ℚ) : 0 ≤ inFlight b s w :=
  OrderedMap.sum_nonneg fun _ c _ => c.repliedTo_nonneg w

theorem inFlight_finish_le (s : Process) (id : ℕ) (w : ℚ) :
    inFlight b (s.finish id) w ≤ inFlight b s w :=
  OrderedMap.sum_filter_le (f := fun _ (c : Call) => c.repliedTo b w) _
    fun _ c _ => c.repliedTo_nonneg w

omit [Rounding] in
theorem lookup_of_finish {s : Process} {id id' : ℕ} {c : Call}
    (h : (s.finish id).calls.lookup id' = some c) : s.calls.lookup id' = some c := by
  rw [Process.finish_calls, OrderedMap.lookup_erase] at h
  split at h
  · cases h
  · exact h

/-- The reply of a call split off. -/
theorem inFlight_of_lookup {s : Process} {id : ℕ} {c : Call} (h : s.calls.lookup id = some c)
    (w : ℚ) : inFlight b s w = c.repliedTo b w + inFlight b (s.finish id) w :=
  OrderedMap.sum_eq_add_sum_erase _ h

theorem inFlight_setCall (s : Process) (id : ℕ) (c : Call) (w : ℚ) :
    inFlight b (s.setCall id c) w = c.repliedTo b w + inFlight b (s.finish id) w :=
  OrderedMap.sum_set _ _ _ _

section Moves

variable {cfg : Config b} {x : Lapses} {s s' : Process} {log evs : List Event}

/-- A process admits in a window no more than the store charged to it for the process. -/
theorem Leasing.admitted_le (h : Leasing b s log) (w : ℚ) :
    admittedIn b w log ≤ chargedIn b w log := by
  have hcovered := h.covered w
  have hflight := inFlight_nonneg (b := b) s w
  unfold reached at hcovered
  split at hcovered
  · rename_i hw
    have hused := h.counted.used_le
    rw [h.counted.admitted w hw]
    linarith
  · linarith

theorem Leasing.lEffective_le (h : Leasing b s log) {w : ℚ} (hw : s.windowStart = w) :
    s.lEffective ≤ chargedIn b w log := by
  have hcovered := h.covered w
  have hflight := inFlight_nonneg (b := b) s w
  rw [reached, if_pos hw] at hcovered
  linarith

theorem Leasing.new (hl2 : cfg.l2.isSome = true) : Leasing b (.new cfg) [] where
  counted := .new cfg
  holds := by rintro id c ⟨⟩
  covered w := by
    have hnone : cfg.l2.isNone = false := by simpa using hl2
    simp [reached, inFlight, chargedIn, Process.new]

theorem Call.Holds.keep {c : Call} (h : c.Holds b s) (hwindow : s'.windowStart = s.windowStart)
    (hown : s.tenants.lookup c.check.tenant = some c.check.entry →
      s'.tenants.lookup c.check.tenant = some c.check.entry) : c.Holds b s' where
  le_window := hwindow ▸ h.le_window
  own hw := hown (h.own (hwindow ▸ hw))

/-- What keeps the window, the effective limit and the calls keeps the cover, if it admits and
charges nothing and takes no entry from a call. -/
theorem Leasing.keep (h : Leasing b s log) (hcounted : Counted b s' (log ++ evs))
    (hwindow : s'.windowStart = s.windowStart) (hlimit : s'.lEffective = s.lEffective)
    (hcalls : ∀ id c, s'.calls.lookup id = some c → s.calls.lookup id = some c)
    (hflight : ∀ w, inFlight b s' w ≤ inFlight b s w)
    (hown : ∀ id c, s.calls.lookup id = some c →
      s.tenants.lookup c.check.tenant = some c.check.entry →
        s'.tenants.lookup c.check.tenant = some c.check.entry)
    (hadmitted : ∀ w : ℚ, s.windowStart ≠ w → admittedIn b w evs = 0)
    (hcharged : ∀ w, chargedIn b w evs = 0) : Leasing b s' (log ++ evs) where
  counted := hcounted
  holds id c hc := (h.holds id c (hcalls id c hc)).keep hwindow (hown id c (hcalls id c hc))
  covered w := by
    have hreached : reached b s' (log ++ evs) w = reached b s log w := by
      unfold reached
      rw [hwindow, hlimit]
      split
      · rfl
      · rename_i hne
        rw [admittedIn_append, hadmitted w hne, add_zero]
    rw [hreached, chargedIn_append, hcharged, add_zero]
    exact (add_le_add le_rfl (hflight w)).trans (h.covered w)

/-- A new window opens with nothing leased. -/
theorem Leasing.roll (h : Leasing b s log) (hl2 : cfg.l2.isSome = true) {now : ℚ}
    (hlt : s.windowStart < (startOf b.windowMs now : ℚ))
    (hcounted : Counted b ((s.opened cfg (startOf b.windowMs now : ℚ)).tick now) log) :
    Leasing b ((s.opened cfg (startOf b.windowMs now : ℚ)).tick now) log := by
  refine ⟨hcounted, fun id c hc => ?_, fun w => le_trans ?_ (h.covered w)⟩
  · have hbefore := (h.holds id c hc).le_window.trans_lt hlt
    exact ⟨hbefore.le, fun heq => absurd heq hbefore.ne'⟩
  · have hflight : inFlight b ((s.opened cfg (startOf b.windowMs now : ℚ)).tick now) w
        = inFlight b s w := rfl
    have hinitial : cfg.initial = 0 := by simp [Config.initial, Option.isSome_iff_ne_none.mp hl2]
    rw [hflight]
    refine add_le_add ?_ le_rfl
    unfold reached
    by_cases hnew : ((startOf b.windowMs now : ℚ) : WithBot ℚ) = w
    · have hne : s.windowStart ≠ w := fun heq => hlt.ne (heq.trans hnew.symm)
      rw [if_neg hne, h.counted.later w (hnew ▸ hlt)]
      simp [Process.tick, Process.opened, hnew, hinitial]
    · have hadmitted : admittedIn b w log ≤ if s.windowStart = w then s.lEffective else
          admittedIn b w log := by
        split
        · rename_i hw
          rw [h.counted.admitted w hw]
          exact h.counted.used_le
        · exact le_rfl
      simpa [Process.tick, Process.opened, hnew] using hadmitted

/-- A granted lease of the window of the process moves from the reply to the effective limit. -/
theorem Leasing.grow (h : Leasing b s log) {id : ℕ} {c : Call} {leased : Decision}
    (hcall : s.calls.lookup id = some c) (hstage : c.stage = .replied leased)
    (hallowed : leased.allowed = true)
    (hwindow : s.windowStart = (startOf b.windowMs c.check.now : ℚ))
    (hplain : Unrounded (s.lEffective + c.leaseAmount))
    (hcounted : Counted b ((s.grow c.leaseAmount).finish id) log) :
    Leasing b ((s.grow c.leaseAmount).finish id) log := by
  refine ⟨hcounted, fun id' c' hc' => ?_, fun w => le_trans ?_ (h.covered w)⟩
  · exact (h.holds id' c' (lookup_of_finish hc')).keep rfl fun hown => hown
  · have hflight : inFlight b ((s.grow c.leaseAmount).finish id) w
        = inFlight b (s.finish id) w := rfl
    have hsame : reached b ((s.grow c.leaseAmount).finish id) log w
        = reached b s log w + c.repliedTo b w := by
      by_cases hw : startOf b.windowMs c.check.now = w
      · have hopen : s.windowStart = w := by rw [hwindow, hw]
        have hgrown : (s.grow c.leaseAmount).lEffective = s.lEffective + c.leaseAmount := hplain
        simp [reached, Process.finish, hopen, Call.repliedTo, hstage, hallowed, hw, hgrown]
      · have hne : s.windowStart ≠ w := fun heq => hw (by
          rw [hwindow] at heq
          exact_mod_cast heq)
        simp [reached, hne, Call.repliedTo, hstage, hw]
    rw [hflight, hsame, inFlight_of_lookup hcall]
    linarith

/-- **Every move without a lapse keeps the cover.** -/
theorem Leasing.move (h : Leasing b s log) (hl2 : cfg.l2.isSome = true)
    (hmiscuts : ¬ x.miscuts) (hrounds : ¬ x.rounds) (hused : ¬ x.evictsUsed)
    (hheld : ¬ x.evictsHeld) (hstrays : ¬ x.strays)
    (hdetached : ¬ x.detached) (hlate : ¬ x.late) (hresets : ¬ x.resets)
    (hmove : Move cfg x s evs s') : Leasing b s' (log ++ evs) := by
  have hcounted := h.counted.move hmiscuts hrounds hused hdetached hlate hresets hmove
  cases hmove with
  | stay now hcuts =>
    exact h.keep hcounted rfl rfl (fun _ _ hc => hc) (fun _ => le_rfl) (fun _ _ _ ho => ho)
      (fun _ _ => rfl) fun _ => rfl
  | roll now hcuts =>
    rw [List.append_nil] at hcounted ⊢
    exact h.roll hl2 (hcuts.resolve_right hmiscuts) hcounted
  | weigh tenant ref w hlookup hw hplain =>
    exact h.keep hcounted rfl rfl (fun _ _ hc => hc) (fun _ => le_rfl) (fun _ _ _ ho => ho)
      (fun _ _ => rfl) fun _ => rfl
  | evict tenant ref hlookup hu hunheld hplain =>
    have hdelete := Process.deleteTenant_of_lookup hlookup
    refine h.keep hcounted (by simp [hdelete]) (by simp [hdelete])
      (fun _ _ hc => by simpa [hdelete] using hc) (fun w => by simp [inFlight, hdelete])
      (fun id c hc hown => ?_) (fun _ _ => rfl) fun _ => rfl
    have hne : tenant ≠ c.check.tenant := by
      rintro rfl
      exact hunheld.resolve_right hheld id c hc (Option.some.inj (hown.symm.trans hlookup))
    simpa [hdelete, OrderedMap.lookup_erase_of_ne _ hne] using hown
  | create tenant w hnone hw hplain =>
    refine h.keep hcounted rfl rfl (fun _ _ hc => hc) (fun _ => le_rfl) (fun id c hc hown => ?_)
      (fun _ _ => rfl) fun _ => rfl
    have hne : tenant ≠ c.check.tenant := by
      rintro rfl
      simp [hnone] at hown
    simpa [OrderedMap.lookup_set_of_ne _ _ hne] using hown
  | decide id k horigin hplain =>
    have hwindow := h.counted.window_of_origin hlate horigin
    have hsame : (conclude b s id k).1.windowStart = s.windowStart ∧
        (conclude b s id k).1.lEffective = s.lEffective ∧
        (conclude b s id k).1.calls = s.calls.erase id ∧
        (conclude b s id k).1.tenants = s.tenants := by
      rcases decide_cases (b := b) s k with ⟨-, heq⟩ | ⟨-, heq⟩ <;>
        simp [conclude, heq, Process.finish, Process.applyUsed]
    refine h.keep hcounted hsame.1 hsame.2.1 (fun id' c hc => ?_) (fun w => ?_)
      (fun id' c hc hown => hsame.2.2.2 ▸ hown) (fun w hne => ?_) fun w => ?_
    · rw [hsame.2.2.1, OrderedMap.lookup_erase] at hc
      split at hc
      · cases hc
      · exact hc
    · rw [inFlight, hsame.2.2.1]
      exact inFlight_finish_le s id w
    · have hother : startOf b.windowMs k.now ≠ w := by
        rintro rfl
        exact hne hwindow
      simp [admittedIn, conclude, admitOf, hother]
    · simp [chargedIn, conclude, chargeOf]
  | suspend id c hl2' horigin hfree hstage =>
    have hwindow := h.counted.window_of_origin hlate horigin
    have hown : s.tenants.lookup c.check.tenant = some c.check.entry := by
      rcases horigin with ⟨hown, -⟩ | ⟨hown, -⟩
      · exact hown
      · exact hown.resolve_right hstrays
    rw [List.append_nil] at hcounted ⊢
    refine ⟨hcounted, fun id' c' hc' => ?_, fun w => ?_⟩
    · rw [show (s.setCall id c).calls = s.calls.set id c from rfl, OrderedMap.lookup_set] at hc'
      split at hc'
      · obtain rfl := Option.some.inj hc'
        exact ⟨hwindow.ge, fun _ => hown⟩
      · exact (h.holds id' c' hc').keep rfl fun ho => ho
    · have hzero : c.repliedTo b w = 0 := by simp [Call.repliedTo, hstage]
      have hreached : reached b (s.setCall id c) log w = reached b s log w := rfl
      have hle := inFlight_finish_le (b := b) s id w
      rw [hreached, inFlight_setCall, hzero, zero_add]
      exact (add_le_add le_rfl hle).trans (h.covered w)
  | threw id e =>
    exact h.keep hcounted rfl rfl (fun _ _ hc => hc) (fun _ => le_rfl) (fun _ _ _ ho => ho)
      (fun _ _ => by simp [admittedIn, admitOf]) fun _ => by simp [chargedIn, chargeOf]
  | serve id c leased hcall hstage =>
    refine ⟨hcounted, fun id' c' hc' => ?_, fun w => ?_⟩
    · rw [show (s.setCall id { c with stage := .replied leased }).calls
        = s.calls.set id { c with stage := .replied leased } from rfl, OrderedMap.lookup_set] at hc'
      split at hc'
      · rename_i hid
        obtain rfl := Option.some.inj hc'
        have hold := h.holds id c hcall
        exact ⟨hold.le_window, hold.own⟩
      · exact (h.holds id' c' hc').keep rfl fun ho => ho
    · have hzero : c.repliedTo b w = 0 := by simp [Call.repliedTo, hstage]
      have hflight : inFlight b s w = inFlight b (s.finish id) w := by
        rw [inFlight_of_lookup hcall, hzero, zero_add]
      have hcovered := h.covered w
      cases hallowed : leased.allowed with
      | false =>
        have hreached : reached b (s.setCall id { c with stage := .replied leased }) (log ++ []) w
            = reached b s log w := by rw [List.append_nil]; rfl
        simp only [Bool.false_eq_true, if_false]
        rw [hreached, inFlight_setCall, ← hflight, List.append_nil]
        simpa [Call.repliedTo, hallowed] using hcovered
      | true =>
        have hreached : reached b (s.setCall id { c with stage := .replied leased })
            (log ++ [.charged c.check.now c.leaseAmount]) w = reached b s log w := by
          have hnone : admittedIn b w [.charged c.check.now c.leaseAmount] = 0 := by
            simp [admittedIn, admitOf]
          unfold reached
          rw [admittedIn_append, hnone, add_zero]
          rfl
        have hcharge : chargedIn b w [.charged c.check.now c.leaseAmount]
            = Call.repliedTo b w { c with stage := .replied leased } := by
          simp [chargedIn, chargeOf, Call.repliedTo, hallowed]
        simp only [if_true]
        rw [hreached, inFlight_setCall, ← hflight, chargedIn_append, hcharge]
        linarith
  | lose id =>
    exact h.keep hcounted rfl rfl (fun id' c hc => lookup_of_finish hc)
      (fun w => inFlight_finish_le s id w) (fun _ _ _ ho => ho)
      (fun _ _ => by simp [admittedIn, admitOf]) fun _ => by simp [chargedIn, chargeOf]
  | refuse id k d =>
    exact h.keep hcounted rfl rfl (fun id' c hc => lookup_of_finish hc)
      (fun w => inFlight_finish_le s id w) (fun _ _ _ ho => ho)
      (fun _ _ => by simp [admittedIn, admitOf]) fun _ => by simp [chargedIn, chargeOf]
  | grow id c leased hcall hstage hallowed hl hplain =>
    rw [List.append_nil] at hcounted ⊢
    exact h.grow hcall hstage hallowed (hl.resolve_right hlate) (hplain.resolve_right hrounds)
      hcounted
  | reset tenant hr hplain => exact absurd hr hresets

end Moves

/-! ### The store -/

section Step

variable {cfg : Config b} {store store' : L2} {s s' : Process} {a : Act} {evs : List Event}

theorem chargedIn_conclude (s : Process) (id : ℕ) (k : Check) (w : ℚ) :
    chargedIn b w (conclude b s id k).2 = 0 := by
  simp [chargedIn, conclude, chargeOf]

theorem chargedIn_checkL2 (l2 : Backing b) (s : Process) (id : ℕ) (k : Check) (w : ℚ) :
    chargedIn b w (checkL2 l2 s id k).2 = 0 := by
  unfold checkL2
  dsimp only
  split
  · exact chargedIn_conclude s id k w
  · rfl

/-- What a step does to the store: it applies a lease, which it charges when it is granted, or
charges nothing. -/
theorem step_charges (h : step cfg store s a = some (store', s', evs)) :
    (∃ l2 id c d, cfg.l2 = some l2 ∧ a = .serve id ∧ s.calls.lookup id = some c ∧
      FixedWindow.applyCheck l2.sharedStrategy store b.l2Key c.check.now c.leaseAmount
        = (store', d) ∧
      evs = if d.allowed then [.charged c.check.now c.leaseAmount] else []) ∨
    ((store' = store ∨ store' = store.expire b.l2Key) ∧ ∀ w, chargedIn b w evs = 0) := by
  cases a with
  | checkSync id tenant cost weight now =>
    simp only [step] at h
    split at h
    · cases h
    · obtain ⟨rfl, -, rfl⟩ : store = store' ∧ _ = s' ∧ _ = evs := by simpa [Prod.ext_iff] using h
      refine .inr ⟨.inl rfl, fun w => ?_⟩
      unfold checkSync
      split
      · simp [chargedIn, chargeOf]
      · split
        · simp [chargedIn, chargeOf]
        · exact chargedIn_conclude _ _ _ w
  | check id tenant cost weight now =>
    simp only [step] at h
    split at h
    · cases h
    · obtain ⟨rfl, -, rfl⟩ : store = store' ∧ _ = s' ∧ _ = evs := by simpa [Prod.ext_iff] using h
      refine .inr ⟨.inl rfl, fun w => ?_⟩
      unfold check
      split
      · simp [chargedIn, chargeOf]
      · split
        · exact chargedIn_conclude _ _ _ w
        · exact chargedIn_checkL2 _ _ _ _ w
  | serve id =>
    obtain ⟨l2, hl2, h⟩ := Option.bind_eq_some_iff.mp h
    obtain ⟨c, hcall, h⟩ := Option.bind_eq_some_iff.mp h
    cases hstage : c.stage with
    | requested =>
      simp only [hstage, Option.some.injEq, Prod.mk.injEq] at h
      obtain ⟨rfl, -, rfl⟩ := h
      exact .inl ⟨l2, id, c, _, hl2, rfl, hcall, rfl, rfl⟩
    | replied leased => simp [hstage] at h
  | lose id =>
    simp only [step] at h
    split at h
    · cases h
      exact .inr ⟨.inl rfl, fun w => by simp [chargedIn, chargeOf]⟩
    · cases h
  | resume id =>
    obtain ⟨l2, hl2, h⟩ := Option.bind_eq_some_iff.mp h
    obtain ⟨r, hr, heq⟩ := Option.map_eq_some_iff.mp h
    cases heq
    refine .inr ⟨.inl rfl, fun w => ?_⟩
    obtain ⟨c, -, hr⟩ := Option.bind_eq_some_iff.mp hr
    cases hstage : c.stage with
    | requested => simp [hstage] at hr
    | replied leased =>
      simp only [hstage] at hr
      split at hr
      · split at hr
        · obtain ⟨-, rfl⟩ := Prod.mk.inj (Option.some.inj hr)
          simp [chargedIn, chargeOf]
        · have hevs := congrArg Prod.snd (Option.some.inj hr)
          rw [← show _ = evs from hevs]
          exact chargedIn_checkL2 _ _ _ _ w
      · obtain ⟨-, rfl⟩ := Prod.mk.inj (Option.some.inj hr)
        simp [chargedIn, chargeOf]
  | reset tenant =>
    cases h
    exact .inr ⟨.inl rfl, fun _ => rfl⟩
  | expire =>
    cases h
    exact .inr ⟨.inr rfl, fun _ => rfl⟩

end Step

/-! ### The bounds -/

/-- The store applies the lease in window order. -/
def servesInOrder {ι : Type} (cfg : ι → Config b) (s : Parties ι L2 Process) (a : ι × Act) : Bool :=
  match a.2 with
  | .serve id =>
    match (cfg a.1).l2, (s.party a.1).calls.lookup id with
    | some l2, some c => FixedWindow.InOrder l2.sharedStrategy s.shared b.l2Key c.check.now
    | _, _ => true
  | _ => true

/-- A run of checks without resets, at clock readings that do not go back, whose leases the store
applies in window order. -/
def SharedForward {ι : Type} (cfg : ι → Config b) (s : Parties ι L2 Process) (a : ι × Act) : Prop :=
  ChecksForward cfg s a ∧ servesInOrder cfg s a = true

/-- The store does not round what it counts. -/
def servesPlain {ι : Type} (b : Budget) (s : Parties ι L2 Process) (a : ι × Act) : Prop :=
  match a.2 with
  | .serve id => ∀ c ∈ (s.party a.1).calls.lookup id, Unrounded
    (FixedWindow.countIn (s.shared.read b.l2Key) (startOf b.windowMs c.check.now) + c.leaseAmount)
  | _ => True

instance {ι : Type} (s : Parties ι L2 Process) : ∀ a : ι × Act, Decidable (servesPlain b s a)
  | (_, .serve _) => inferInstanceAs (Decidable (∀ _ ∈ _, _))
  | (_, .checkSync ..) | (_, .check ..) | (_, .lose _) | (_, .resume _) | (_, .reset _)
  | (_, .expire) => isTrue trivial

/-- The conditions on a step: a granted lease is resumed in the window of its check, no tenant is
evicted that has used units of the window or has a check suspended, and rounding changes nothing. -/
def SharedStep {ι : Type} (cfg : ι → Config b) (s : Parties ι L2 Process) (a : ι × Act) : Prop :=
  SharedForward cfg s a ∧ resumesLate b (s.party a.1) a.2 = false ∧
    evictsUsed (cfg a.1) (s.party a.1) a.2 = false ∧
    evictsHeld (cfg a.1) (s.party a.1) a.2 = false ∧ Faithful cfg s a ∧ servesPlain b s a

instance SharedForward.decidable {ι : Type} (cfg : ι → Config b) (s : Parties ι L2 Process)
    (a : ι × Act) : Decidable (SharedForward cfg s a) :=
  inferInstanceAs (Decidable (_ ∧ _))

instance SharedStep.decidable {ι : Type} (cfg : ι → Config b) (s : Parties ι L2 Process)
    (a : ι × Act) : Decidable (SharedStep cfg s a) :=
  inferInstanceAs (Decidable (_ ∧ _ ∧ _ ∧ _ ∧ _ ∧ _))

omit [Rounding] in
instance {ι : Type} (cfg : ι → Config b) (s : Parties ι L2 Process) (a : ι × Act) :
    Decidable (@SharedForward doubles b ι cfg s a) :=
  @SharedForward.decidable doubles b ι cfg s a

omit [Rounding] in
instance {ι : Type} (cfg : ι → Config b) (s : Parties ι L2 Process) (a : ι × Act) :
    Decidable (@SharedStep doubles b ι cfg s a) :=
  @SharedStep.decidable doubles b ι cfg s a

section Fleet

variable {ι : Type} [DecidableEq ι] {cfg : ι → Config b} {log : List (ι × Event)}
  {s : Parties ι L2 Process}

/-- A granted lease that is resumed in the window of its check finds its tenant's entry. -/
theorem strays_eq_false {s : Process} {log : List Event} (h : Leasing b s log) {a : Act}
    (hlate : resumesLate b s a = false) : strays s a = false := by
  unfold strays
  cases hgranted : granted s a with
  | none => rfl
  | some c =>
    have hwindow : s.windowStart = (startOf b.windowMs c.check.now : ℚ) := by
      simpa [resumesLate, hgranted] using hlate
    obtain ⟨id, hcall⟩ : ∃ id, s.calls.lookup id = some c := by
      cases a with
      | resume id => exact ⟨id, (Option.filter_eq_some_iff.mp hgranted).1⟩
      | _ => cases hgranted
    simpa using (h.holds id c hcall).own hwindow

theorem leasing_of_run (hl2 : ∀ i, (cfg i).l2.isSome = true)
    (hrun : (fleet cfg).Run (SharedStep cfg) (start cfg) log s) (i : ι) :
    Leasing b (s.party i) (Parties.outputsOf i log) := by
  refine Parties.run_party (I := fun _ s log => Leasing b s log) (fun j => .new (hl2 j)) ?_ hrun i
  intro s j a store s' l log hinv hok hstep
  obtain ⟨⟨⟨-, hreset⟩, -⟩, hlate, hused, hheld, ⟨hcuts, hplain⟩, -⟩ := hok
  have hstrays := strays_eq_false hinv hlate
  refine Chain.invariant (I := fun s log => Leasing b s log) (fun s log s' new hI hmove => ?_)
    (step_moves hstep) hinv
  refine hI.move (hl2 j) (not_not_intro hcuts) (not_not_intro hplain) (ne_true_of_eq_false hused)
    (ne_true_of_eq_false hheld) (ne_true_of_eq_false hstrays) ?_ (ne_true_of_eq_false hlate)
    (ne_true_of_eq_false hreset) hmove
  simp [lapses, decidesDetached, hstrays]

omit [DecidableEq ι] in
theorem chargedIn_append_own (w : ℚ) (log : List (ι × Event)) (i : ι) (evs : List Event) :
    chargedIn b w ((log ++ evs.map fun e => (i, e)).map Prod.snd)
      = chargedIn b w (log.map Prod.snd) + chargedIn b w evs := by
  rw [List.map_append, chargedIn_append, List.map_map]
  congr 2
  exact List.map_id' evs

/-- The store charges no window past the limit, when it applies the leases in window order. -/
theorem chargedIn_le_limit (hrun : (fleet cfg).Run (SharedStep cfg) (start cfg) log s)
    (l2 : Backing b) (w : ℚ) : chargedIn b w (log.map Prod.snd) ≤ b.limit := by
  have hwithin : FixedWindow.WithinLimit l2.sharedStrategy s.shared fun key w =>
      if key = b.l2Key then chargedIn b w (log.map Prod.snd) else 0 := by
    refine Parties.run_shared (I := fun store log =>
      FixedWindow.WithinLimit l2.sharedStrategy store fun key w =>
        if key = b.l2Key then chargedIn b w (log.map Prod.snd) else 0) ?_ ?_ hrun
    · simpa [chargedIn, start] using FixedWindow.WithinLimit.empty l2.sharedStrategy
    intro s i a store' p evs log hwithin hok hstep
    rcases step_charges hstep with ⟨l2', id, c, d, hl2', rfl, hcall, happly, rfl⟩ | ⟨hstore, hzero⟩
    · have horder : FixedWindow.InOrder l2'.sharedStrategy s.shared b.l2Key c.check.now = true := by
        have := hok.1.2
        simpa [servesInOrder, hl2', hcall] using this
      have hplain := hok.2.2.2.2.2
      have happlied := hwithin.apply horder (hplain c hcall) happly
      convert happlied using 3 with key w
      rw [chargedIn_append_own]
      by_cases hkey : key = b.l2Key
      · simp only [hkey, if_true]
        congr 1
        cases hd : d.allowed with
        | false => simp [FixedWindow.chargeOf, hd, chargedIn]
        | true =>
          simp [FixedWindow.chargeOf, hd, chargedIn, chargeOf, Backing.sharedStrategy,
            eq_comm (a := w)]
      · simp [FixedWindow.chargeOf, hkey]
    · have hsame : (fun key w => if key = b.l2Key then
          chargedIn b w ((log ++ evs.map fun e => (i, e)).map Prod.snd) else 0)
          = fun key w => if key = b.l2Key then chargedIn b w (log.map Prod.snd) else 0 := by
        funext key w
        rw [chargedIn_append_own, hzero, add_zero]
      rw [hsame]
      rcases hstore with rfl | rfl
      · exact hwithin
      · exact hwithin.expire b.l2Key
  have hle := hwithin.le_limit b.l2Key w
  rw [if_pos rfl] at hle
  exact hle

/-- What an event pays into and takes out of the accounts of the windows. -/
def posting (b : Budget) : Event → List (Posting ℚ ℚ)
  | .charged now amount => [.credit (startOf b.windowMs now) amount]
  | .decided _ k _ _ d =>
    if d.allowed then [.debit (startOf b.windowMs k.now) k.cost] else []
  | _ => []

theorem debited_posting (w : ℚ) (log : List Event) :
    debited (fun w' => w' = w) (ledger (posting b) log) = admittedIn b w log := by
  refine debited_ledger_eq_sum (fun e => ?_) log
  cases e with
  | decided id k window divisor d => cases hd : d.allowed <;> simp [posting, debitOf, admitOf, hd]
  | _ => simp [posting, debitOf, admitOf]

theorem credited_posting (w : ℚ) (log : List Event) :
    credited (fun w' => w' = w) (ledger (posting b) log) = chargedIn b w log := by
  refine credited_ledger_eq_sum (fun e => ?_) log
  cases e with
  | decided id k window divisor d => cases hd : d.allowed <;> simp [posting, creditOf, chargeOf, hd]
  | _ => simp [posting, creditOf, chargeOf]

/-- **Processes around one store stay within its limit.** In every run whose steps all meet the
conditions, for any processes, tenants, weights and costs, however late the replies: what all
processes admit in a window costs at most the limit, and the effective limit of a process is made of
units the store charged to its current window. -/
theorem shared_admitted_le_limit (hl2 : ∀ i, (cfg i).l2.isSome = true)
    (hrun : (fleet cfg).Run (SharedStep cfg) (start cfg) log s) :
    (∀ w, admittedIn b w (log.map Prod.snd) ≤ b.limit) ∧
      ∀ i (w : ℚ), (s.party i).windowStart = w →
        (s.party i).lEffective ≤ chargedIn b w (Parties.outputsOf i log) := by
  refine ⟨fun w => ?_, fun i w hw => (leasing_of_run hl2 hrun i).lEffective_le hw⟩
  have hsolvent : ∀ i k, 0 ≤ balance (ledger (posting b) (Parties.outputsOf i log)) k := by
    intro i k
    rw [balance, credited_posting, debited_posting]
    exact sub_nonneg.mpr ((leasing_of_run hl2 hrun i).admitted_le k)
  have hadmitted := debited_le_of_forall_party hsolvent fun k => k.2 = w
  rw [credited_partyLedger _ fun k => k = w, debited_partyLedger _ fun k => k = w,
    credited_posting, debited_posting] at hadmitted
  rcases log with _ | ⟨⟨i, e⟩, log⟩
  · rw [List.map_nil, admittedIn_nil]
    exact_mod_cast b.limit_nonneg
  · exact hadmitted.trans (chargedIn_le_limit hrun ((cfg i).l2.get (hl2 i)) w)

end Fleet

end Rounded

/-! ### The conditions are needed -/

/-- Two units a second. -/
def twoASecond : Budget := ⟨2, 1000, "tk:wfe:pool", by decide, second_pos⟩

/-- A process that leases in twos. -/
def leasesTwos : Config twoASecond := ⟨none, some ⟨2, by decide, by decide⟩⟩

/-- Two processes ask in one window, one is denied its lease and leases in the next. -/
def sharesStore : List (Bool × Act) :=
  [(true, .check 0 "A" 1 1 0), (false, .check 0 "B" 1 1 10), (true, .serve 0), (false, .serve 0),
    (true, .resume 0), (false, .resume 0), (true, .check 1 "B" 1 2 20),
    (false, .check 1 "A" 1 1 1000), (false, .serve 1), (false, .resume 1)]

theorem shared_admitted_le_limit_two_processes :
    @admittedIn doubles twoASecond 0 ((((@fleet doubles _ Bool _ fun _ => leasesTwos).exec
      (start fun _ => leasesTwos) sharesStore).get (by decide +kernel)).2.map Prod.snd) ≤ 2 :=
  (@shared_admitted_le_limit doubles _ _ _ _ _ _ (fun _ => rfl)
    (run_of_isSome (by decide +kernel) (by decide +kernel))).1 0

/-- A check leases in one window, another rolls the window and leases in it, and then both replies
arrive. -/
def leaseAcrossRoll : List (Unit × Act) :=
  [((), .check 0 "A" 1 1 0), ((), .serve 0), ((), .check 1 "B" 1 1 1000), ((), .serve 1),
    ((), .resume 0), ((), .resume 1), ((), .check 2 "B" 1 1 1010), ((), .check 3 "B" 1 1 1020)]

/-- **A lease that arrives after a roll exceeds the limit.** Three units are admitted of the second
window, of which the limit is two. -/
theorem late_lease_exceeds_limit :
    ¬ ∀ (log : List (Unit × Event)) (s : Parties Unit L2 Process),
      (@fleet doubles _ Unit _ fun _ => leasesTwos).Run
          (@SharedForward doubles _ _ fun _ => leasesTwos) (start fun _ => leasesTwos) log s →
          (∀ w, @admittedIn doubles twoASecond w (log.map Prod.snd) ≤ twoASecond.limit) ∧
            ∀ w : ℚ, (s.party ()).windowStart = w →
              (s.party ()).lEffective
                ≤ @chargedIn doubles twoASecond w (Parties.outputsOf () log) := by
  intro h
  have hrun := run_of_isSome (m := @fleet doubles _ Unit _ fun _ => leasesTwos)
    (p := @SharedForward doubles _ _ fun _ => leasesTwos) (s := start fun _ => leasesTwos)
    (l := leaseAcrossRoll) (by decide +kernel) (by decide +kernel)
  exact absurd ((h _ _ hrun).1 1000) (by decide +kernel)

end ThrottleKit.FairEscrow
