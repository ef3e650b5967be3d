import ThrottleKit.Lib.Purse
import ThrottleKit.TwoTier.FairEscrowAggregates

/-!
# The limit of a weighted fair escrow

Whatever the shares say, no check is admitted past what the effective limit leaves of the used
total, so the limit holds as long as that total counts what the window has admitted. It does until a
tenant is evicted: its used amount is taken off the total, and the units it was admitted are handed
out again (`eviction_exceeds_limit`).

## Main definitions

* `admittedIn`, `chargedIn` — what a run admitted in a window, and what the store charged to it
* `Counted` — the used total is what the window has admitted
* `AloneStep` — the conditions on a step of a process without `l2`

## Main results

* `Counted.move` — every move without a lapse keeps the count
* `alone_admitted_le_limit` — a process without `l2` keeps every window within the limit
-/

namespace ThrottleKit.FairEscrow

open Machine Purse Rounding

section Rounded

variable [Rounding] {b : Budget}

/-- What an event admits in the window starting at `w`. -/
def admitOf (b : Budget) (w : ℚ) : Event → ℚ
  | .decided _ k _ _ d =>
    if d.allowed then if startOf b.windowMs k.now = w then k.cost else 0 else 0
  | _ => 0

/-- What an event charges to the window starting at `w`. -/
def chargeOf (b : Budget) (w : ℚ) : Event → ℚ
  | .charged now amount => if startOf b.windowMs now = w then amount else 0
  | _ => 0

/-- The cost of the checks of the window starting at `w` that were admitted. -/
def admittedIn (b : Budget) (w : ℚ) (log : List Event) : ℚ := (log.map (admitOf b w)).sum

/-- What the store charged to the window starting at `w`. -/
def chargedIn (b : Budget) (w : ℚ) (log : List Event) : ℚ := (log.map (chargeOf b w)).sum

@[simp] theorem admittedIn_nil (w : ℚ) : admittedIn b w [] = 0 := rfl

@[simp] theorem admittedIn_append (w : ℚ) (l l' : List Event) :
    admittedIn b w (l ++ l') = admittedIn b w l + admittedIn b w l' := by
  simp [admittedIn]

@[simp] theorem chargedIn_append (w : ℚ) (l l' : List Event) :
    chargedIn b w (l ++ l') = chargedIn b w l + chargedIn b w l' := by
  simp [chargedIn]

/-! ### The used total counts what was admitted -/

/-- The used total is what the window has admitted, and the process is in the window of its
clock. -/
structure Counted (b : Budget) (s : Process) (log : List Event) : Prop where
  sound : Sound s
  window : ∀ w : ℚ, s.windowStart = w → w = startOf b.windowMs s.clock
  admitted : ∀ w : ℚ, s.windowStart = w → admittedIn b w log = s.aggUsed
  later : ∀ w : ℚ, s.windowStart < w → admittedIn b w log = 0
  used_le : s.aggUsed ≤ s.lEffective

section Moves

variable {cfg : Config b} {x : Lapses} {s s' : Process} {log evs : List Event}

omit [Rounding] in
theorem initial_nonneg (cfg : Config b) : 0 ≤ cfg.initial := by
  unfold Config.initial
  split
  · exact_mod_cast b.limit_nonneg
  · exact le_rfl

theorem Counted.new (cfg : Config b) : Counted b (.new cfg) [] where
  sound := .empty _ _ _ _ _ _
  window _ hw := absurd hw WithBot.bot_ne_coe
  admitted _ hw := absurd hw WithBot.bot_ne_coe
  later _ _ := rfl
  used_le := initial_nonneg cfg

/-- What does not touch the window or the used total keeps the count, if it admits nothing. -/
theorem Counted.keep (h : Counted b s log) (hsound : Sound s') (hclock : s'.clock = s.clock)
    (hwindow : s'.windowStart = s.windowStart) (hused : s'.aggUsed = s.aggUsed)
    (hlimit : s.lEffective ≤ s'.lEffective) (hnew : ∀ w, admittedIn b w evs = 0) :
    Counted b s' (log ++ evs) := by
  refine ⟨hsound, ?_, ?_, ?_, ?_⟩
  · rw [hwindow, hclock]
    exact h.window
  · intro w hw
    rw [admittedIn_append, hnew, add_zero, hused]
    exact h.admitted w (hwindow ▸ hw)
  · intro w hw
    rw [admittedIn_append, hnew, add_zero]
    exact h.later w (hwindow ▸ hw)
  · rw [hused]
    exact h.used_le.trans hlimit

/-- Where a check without a lapse comes from, the process is in its window. -/
theorem Counted.window_of_origin (h : Counted b s log) {stray : Prop} {k : Check}
    (hlate : ¬ x.late) (horigin : Origin b x stray s k) :
    s.windowStart = (startOf b.windowMs k.now : ℚ) := by
  rcases horigin with ⟨-, hnow, hopen⟩ | ⟨-, hwindow⟩
  · obtain ⟨w, hw⟩ := WithBot.ne_bot_iff_exists.mp hopen
    rw [← hw, h.window w hw.symm, hnow]
  · exact hwindow.resolve_right hlate

/-- An admission adds its cost to the used total and to what the window has admitted. -/
theorem Counted.decide (h : Counted b s log) {id : ℕ} {k : Check} (hplain : PlainDecide s k)
    (hsound : Sound (conclude b s id k).1)
    (hwindow : s.windowStart = (startOf b.windowMs k.now : ℚ)) :
    Counted b (conclude b s id k).1 (log ++ (conclude b s id k).2) := by
  rcases decide_cases (b := b) s k with ⟨hallowed, heq⟩ | ⟨hdenied, heq⟩
  · have hcost := cost_le_of_verdict hallowed
    obtain ⟨hleft, -, htotal⟩ := hplain.2 hcost
    rw [(hleft : fl _ = _), h.sound.aggregate hplain.1] at hcost
    have hused : (conclude b s id k).1.aggUsed = s.aggUsed + k.cost := by
      rw [← (htotal : fl _ = _)]
      simp [conclude, heq, Process.finish, Process.applyUsed]
    have hlEffective : (conclude b s id k).1.lEffective = s.lEffective := by
      simp [conclude, heq, Process.finish, Process.applyUsed]
    have hnew : ∀ w, admittedIn b w (conclude b s id k).2
        = if startOf b.windowMs k.now = w then k.cost else 0 := by
      intro w
      simp [admittedIn, conclude, admitOf, Process.decide, hallowed]
    have hsame : (conclude b s id k).1.windowStart = s.windowStart ∧
        (conclude b s id k).1.clock = s.clock := by
      simp [conclude, heq, Process.finish, Process.applyUsed]
    refine ⟨hsound, ?_, fun w hw => ?_, fun w hw => ?_, ?_⟩
    · rw [hsame.1, hsame.2]
      exact h.window
    · rw [hsame.1] at hw
      have heqw : startOf b.windowMs k.now = w := by
        rw [hwindow] at hw
        exact_mod_cast hw
      rw [admittedIn_append, hnew, if_pos heqw, hused, h.admitted w hw]
    · rw [hsame.1] at hw
      have hne : startOf b.windowMs k.now ≠ w := by
        rintro rfl
        exact absurd hwindow hw.ne
      rw [admittedIn_append, hnew, if_neg hne, add_zero, h.later w hw]
    · rw [hused, hlEffective]
      linarith
  · refine h.keep hsound ?_ ?_ ?_ ?_ fun w => ?_
    · simp [conclude, heq, Process.finish]
    · simp [conclude, heq]
    · simp [conclude, heq, Process.finish]
    · simp [conclude, heq, Process.finish]
    · simp [admittedIn, conclude, admitOf, Process.decide, hdenied]

/-- **Every move without a lapse keeps the count.** -/
theorem Counted.move (h : Counted b s log) (hmiscuts : ¬ x.miscuts) (hrounds : ¬ x.rounds)
    (hused : ¬ x.evictsUsed) (hdetached : ¬ x.detached) (hlate : ¬ x.late) (hresets : ¬ x.resets)
    (hmove : Move cfg x s evs s') : Counted b s' (log ++ evs) := by
  have hsound := h.sound.move hdetached hrounds hmove
  cases hmove with
  | stay now hcuts =>
    rw [List.append_nil]
    refine ⟨hsound, fun w hw => ?_, h.admitted, h.later, h.used_le⟩
    exact WithBot.coe_inj.mp (hw.symm.trans (hcuts.resolve_right hmiscuts))
  | roll now hcuts =>
    have hlt := hcuts.resolve_right hmiscuts
    rw [List.append_nil]
    refine ⟨hsound, fun w hw => ?_, fun w hw => ?_, fun w hw => ?_, initial_nonneg cfg⟩
    · exact (WithBot.coe_inj.mp hw).symm
    · obtain rfl : startOf b.windowMs now = w := WithBot.coe_inj.mp hw
      exact h.later _ hlt
    · exact h.later w (hlt.trans hw)
  | weigh tenant ref w hlookup hw hplain => exact h.keep hsound rfl rfl rfl le_rfl fun _ => rfl
  | evict tenant ref hlookup hu hheld hplain =>
    have hzero : (s.heap ref).used = 0 :=
      le_antisymm (hu.resolve_right hused) (h.sound.used_nonneg tenant ref hlookup)
    have hdelete := Process.deleteTenant_of_lookup hlookup
    rw [((hplain.resolve_right hrounds).2 : fl _ = _)] at hdelete
    refine h.keep hsound ?_ ?_ ?_ ?_ fun _ => rfl
    all_goals simp [hdelete, hzero]
  | create tenant w hnone hw hplain => exact h.keep hsound rfl rfl rfl le_rfl fun _ => rfl
  | decide id k horigin hplain =>
    exact h.decide (hplain.resolve_right hrounds) hsound (h.window_of_origin hlate horigin)
  | suspend id c hl2 horigin hfree hstage => exact h.keep hsound rfl rfl rfl le_rfl fun _ => rfl
  | threw id e => exact h.keep hsound rfl rfl rfl le_rfl fun w => by simp [admittedIn, admitOf]
  | serve id c leased hcall hstage =>
    refine h.keep hsound rfl rfl rfl le_rfl fun w => ?_
    split <;> simp [admittedIn, admitOf]
  | lose id => exact h.keep hsound rfl rfl rfl le_rfl fun w => by simp [admittedIn, admitOf]
  | refuse id k d => exact h.keep hsound rfl rfl rfl le_rfl fun w => by simp [admittedIn, admitOf]
  | grow id c leased hcall hstage hallowed hl hplain =>
    refine h.keep hsound rfl rfl rfl ?_ fun _ => rfl
    exact (le_add_of_nonneg_right c.leaseAmount_pos.le).trans_eq
      (hplain.resolve_right hrounds : fl _ = _).symm
  | reset tenant hr hplain => exact absurd hr hresets

end Moves

/-! ### A process without a store -/

/-- A process without `l2` keeps the whole budget, and every window within it. -/
structure Alone (b : Budget) (s : Process) (log : List Event) : Prop where
  counted : Counted b s log
  idle : ∀ id, s.calls.lookup id = none
  lEffective : s.lEffective = b.limit
  le_limit : ∀ w, admittedIn b w log ≤ b.limit

section Alone

variable {cfg : Config b} {x : Lapses} {s s' : Process} {log evs : List Event}

theorem Alone.move (h : Alone b s log) (hl2 : cfg.l2 = none) (hmiscuts : ¬ x.miscuts)
    (hrounds : ¬ x.rounds) (hused : ¬ x.evictsUsed) (hdetached : ¬ x.detached) (hlate : ¬ x.late)
    (hresets : ¬ x.resets)
    (hmove : Move cfg x s evs s') : Alone b s' (log ++ evs) := by
  have hcounted := h.counted.move hmiscuts hrounds hused hdetached hlate hresets hmove
  have hkeep : ∀ {l : List Event}, (∀ w, admittedIn b w l = 0) →
      ∀ w, admittedIn b w (log ++ l) ≤ b.limit := by
    intro l hl w
    rw [admittedIn_append, hl, add_zero]
    exact h.le_limit w
  cases hmove with
  | stay now hcuts => exact ⟨hcounted, h.idle, h.lEffective, hkeep fun _ => rfl⟩
  | roll now hcuts =>
    exact ⟨hcounted, h.idle, by simp [Process.tick, Process.opened, Config.initial, hl2],
      hkeep fun _ => rfl⟩
  | weigh tenant ref w hlookup hw hplain =>
    exact ⟨hcounted, h.idle, h.lEffective, hkeep fun _ => rfl⟩
  | evict tenant ref hlookup hu hheld hplain =>
    have hdelete := Process.deleteTenant_of_lookup hlookup
    refine ⟨hcounted, ?_, ?_, hkeep fun _ => rfl⟩
    · simpa [hdelete] using h.idle
    · simpa [hdelete] using h.lEffective
  | create tenant w hnone hw hplain =>
    exact ⟨hcounted, h.idle, h.lEffective, hkeep fun _ => rfl⟩
  | decide id k horigin hplain =>
    have hsame : (conclude b s id k).1.lEffective = s.lEffective ∧
        (conclude b s id k).1.windowStart = s.windowStart := by
      rcases decide_cases (b := b) s k with ⟨-, heq⟩ | ⟨-, heq⟩ <;>
        simp [conclude, heq, Process.finish, Process.applyUsed]
    have hcalls : (conclude b s id k).1.calls = s.calls.erase id := by
      rcases decide_cases (b := b) s k with ⟨-, heq⟩ | ⟨-, heq⟩ <;>
        simp [conclude, heq, Process.applyUsed]
    refine ⟨hcounted, fun id' => ?_, hsame.1.trans h.lEffective, fun w => ?_⟩
    · rw [hcalls, OrderedMap.lookup_erase, h.idle, ite_self]
    · by_cases hw : s.windowStart = (w : WithBot ℚ)
      · -- the window of the process has admitted what is used of the budget
        rw [hcounted.admitted w (hsame.2.trans hw), ← h.lEffective, ← hsame.1]
        exact hcounted.used_le
      · have hnone : admittedIn b w (conclude b s id k).2 = 0 := by
          have hne : startOf b.windowMs k.now ≠ w := by
            rintro rfl
            exact hw (h.counted.window_of_origin hlate horigin)
          simp [conclude, admittedIn, admitOf, hne]
        rw [admittedIn_append, hnone, add_zero]
        exact h.le_limit w
  | suspend id c hl2' horigin hfree hstage => simp [hl2] at hl2'
  | threw id e =>
    exact ⟨hcounted, h.idle, h.lEffective, hkeep fun w => by simp [admittedIn, admitOf]⟩
  | serve id c leased hcall hstage => simp [h.idle] at hcall
  | lose id =>
    refine ⟨hcounted, fun id' => ?_, h.lEffective, hkeep fun w => by simp [admittedIn, admitOf]⟩
    simp [OrderedMap.lookup_erase, h.idle]
  | refuse id k d =>
    refine ⟨hcounted, fun id' => ?_, h.lEffective, hkeep fun w => by simp [admittedIn, admitOf]⟩
    simp [OrderedMap.lookup_erase, h.idle]
  | grow id c leased hcall hstage hallowed hl hplain => simp [h.idle] at hcall
  | reset tenant hr hplain => exact absurd hr hresets

end Alone

/-- A run of checks without resets, at clock readings that do not go back. -/
def ChecksForward {ι : Type} (cfg : ι → Config b) (s : Parties ι L2 Process) (a : ι × Act) : Prop :=
  setsBack (cfg a.1) (s.party a.1) a.2 = false ∧ isReset a.2 = false

instance {ι : Type} (cfg : ι → Config b) (s : Parties ι L2 Process) (a : ι × Act) :
    Decidable (ChecksForward cfg s a) :=
  inferInstanceAs (Decidable (_ ∧ _))

/-- What rounding does not change in a step: the window of a check, and the totals. -/
def Faithful {ι : Type} (cfg : ι → Config b) (s : Parties ι L2 Process) (a : ι × Act) : Prop :=
  CutsStep (cfg a.1) (s.party a.1) a.2 ∧ PlainStep (cfg a.1) (s.party a.1) a.2

instance {ι : Type} (cfg : ι → Config b) (s : Parties ι L2 Process) (a : ι × Act) :
    Decidable (Faithful cfg s a) :=
  inferInstanceAs (Decidable (_ ∧ _))

/-- The conditions on a step of a process without `l2`: no tenant is evicted that has used units of
the window, and rounding changes nothing. -/
def AloneStep {ι : Type} (cfg : ι → Config b) (s : Parties ι L2 Process) (a : ι × Act) : Prop :=
  ChecksForward cfg s a ∧ evictsUsed (cfg a.1) (s.party a.1) a.2 = false ∧ Faithful cfg s a

instance AloneStep.decidable {ι : Type} (cfg : ι → Config b) (s : Parties ι L2 Process)
    (a : ι × Act) : Decidable (AloneStep cfg s a) :=
  inferInstanceAs (Decidable (_ ∧ _ ∧ _))

omit [Rounding] in
instance {ι : Type} (cfg : ι → Config b) (s : Parties ι L2 Process) (a : ι × Act) :
    Decidable (@AloneStep doubles b ι cfg s a) :=
  @AloneStep.decidable doubles b ι cfg s a

section Fleet

variable {ι : Type} [DecidableEq ι] {cfg : ι → Config b}

/-- **A process without `l2` stays within its limit.** In every run in which no tenant is evicted
that has used units of the window and rounding changes nothing, for any tenants, weights and costs:
what it admits in a window costs at most the limit. -/
theorem alone_admitted_le_limit {i : ι} (hl2 : (cfg i).l2 = none) {log : List (ι × Event)}
    {s : Parties ι L2 Process} (hrun : (fleet cfg).Run (AloneStep cfg) (start cfg) log s) (w : ℚ) :
    admittedIn b w (Parties.outputsOf i log) ≤ b.limit := by
  have hinv : (cfg i).l2 = none → Alone b (s.party i) (Parties.outputsOf i log) := by
    refine Parties.run_party (I := fun i s log => (cfg i).l2 = none → Alone b s log)
      (fun j hj => ?_) ?_ hrun i
    · refine ⟨.new _, fun _ => rfl, by simp [start, Process.new, Config.initial, hj], fun w => ?_⟩
      rw [admittedIn_nil]
      exact_mod_cast b.limit_nonneg
    · intro s j a store s' l log hinv hok hstep hj
      obtain ⟨⟨-, hreset⟩, hused, hcuts, hplain⟩ := hok
      -- a process without a store never resumes
      have hgranted : granted (s.party j) a = none := by
        cases a with
        | resume id => simp [step, hj] at hstep
        | _ => rfl
      refine Chain.invariant (I := fun s log => Alone b s log) (fun s log s' new hI hmove => ?_)
        (step_moves hstep) (hinv hj)
      refine hI.move hj (not_not_intro hcuts) (not_not_intro hplain) (ne_true_of_eq_false hused)
        ?_ ?_ (ne_true_of_eq_false hreset) hmove
      · simp [lapses, decidesDetached, hgranted]
      · simp [lapses, resumesLate, hgranted]
  exact (hinv hl2).le_limit w

end Fleet

end Rounded

/-! ### The condition is needed -/

/-- One unit a second. -/
def oneASecond : Budget := ⟨1, 1000, "tk:wfe:pool", by decide, second_pos⟩

/-- A process without `l2` that keeps one tenant. -/
def keepsOne : Config oneASecond := ⟨some 1, none⟩

/-- A tenant is admitted and then denied; in the next window one is denied and evicted for
another. -/
def takesTurns : List (Unit × Act) :=
  [((), .check 0 "A" 1 1 0), ((), .checkSync 1 "A" 1 2 10), ((), .check 2 "B" 2 1 1000),
    ((), .check 3 "C" 1 1 1010)]

theorem alone_admitted_le_limit_one_tenant :
    @admittedIn doubles oneASecond 1000 (Parties.outputsOf ()
      (((@fleet doubles _ Unit _ fun _ => keepsOne).exec (start fun _ => keepsOne) takesTurns).get
        (by decide +kernel)).2) ≤ 1 :=
  @alone_admitted_le_limit doubles _ _ _ _ _ rfl _ _
    (run_of_isSome (by decide +kernel) (by decide +kernel)) 1000

/-- A tenant is admitted, and evicted for another in the same window. -/
def evictsAdmitted : List (Unit × Act) := [((), .check 0 "A" 1 1 0), ((), .check 1 "B" 1 1 10)]

/-- **An eviction exceeds the limit.** Two units are admitted in a window, of which the limit is
one. -/
theorem eviction_exceeds_limit :
    ¬ ∀ (log : List (Unit × Event)) (s : Parties Unit L2 Process),
      (@fleet doubles _ Unit _ fun _ => keepsOne).Run (ChecksForward fun _ => keepsOne)
        (start fun _ => keepsOne) log s →
          ∀ w, @admittedIn doubles oneASecond w (Parties.outputsOf () log) ≤ oneASecond.limit := by
  intro h
  have hrun := run_of_isSome (m := @fleet doubles _ Unit _ fun _ => keepsOne)
    (p := ChecksForward fun _ => keepsOne) (s := start fun _ => keepsOne) (l := evictsAdmitted)
    (by decide +kernel) (by decide +kernel)
  exact absurd (h _ _ hrun 0) (by decide +kernel)

end ThrottleKit.FairEscrow
