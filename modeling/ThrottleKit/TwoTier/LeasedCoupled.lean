import ThrottleKit.TwoTier.LeasedAccounts

/-!
# Window-coupled leasing never exceeds the limit

With `windowCoupled` on, the credits of a node are those of the last lease's window: a check that
enters discards them once that window has ended, and a refill that lands after its window is
dropped. As long as on-demand grants land in their window too, and no check reads the clock on both
sides of a boundary, every admission is paid for by a lease of the window its check entered in, and
the nodes together stay within the limit whatever their number.

An on-demand grant has no such test: a check that entered after the boundary and rides a lease of
the window before it is admitted on that lease (`late_lease_admits_in_next_window`).

## Main definitions

* `Coupled` — what ties a node's credits to one window
* `CoupledStep` — the conditions on a step

## Main results

* `Coupled.move`, `held_move_le` — every move keeps it, and the accounts
* `windowCoupled_admitted_le_limit` — the bound
-/

namespace ThrottleKit.Leased

open Machine Purse Rounding

section Rounded

variable [Rounding] {Sizer : Type}

/-- Readings do not go back, and do not fall between a window's end and its rounding. -/
def forward (win : FixedWindow.Config) : Reading := fun clock _ _ now =>
  clock ≤ now ∧ Clear win.windowMs now

/-- What holds of the entry of `key`: credits are of the window of `leasedAt`, and no lease on its
way and no waiting call of the key is of a later one. -/
structure EntryOk (win : FixedWindow.Config) (s : Node Sizer) (key : String) (e : Entry Sizer) :
    Prop where
  nonneg : 0 ≤ e.credits
  decision : 0 < e.credits → ∃ d, e.lastDecision = some d ∧
    d.resetAt ≤ ceilEnd win.windowMs e.leasedAt
  leasedAt_le : 0 < e.credits → e.leasedAt ≤ s.clock
  lease_le : 0 < e.credits → ∀ lease ∈ s.leases, lease.key = key → lease.stage.settled = false →
    startOf win.windowMs lease.now ≤ startOf win.windowMs e.leasedAt
  call_le : 0 < e.credits → ∀ id c, s.calls id = some c → c.key = key →
    startOf win.windowMs c.now ≤ startOf win.windowMs e.leasedAt

/-- What holds of a lease. -/
structure LeaseOk (win : FixedWindow.Config) (clock : ℚ) (lease : Lease) : Prop where
  now_le : lease.now ≤ clock
  pos : 0 < lease.amount
  reply : ∀ d, lease.stage = .replied d → d.resetAt = ceilEnd win.windowMs lease.now

/-- What ties a node's credits to one window. -/
structure Coupled (win : FixedWindow.Config) (s : Node Sizer) : Prop where
  entry : ∀ key e, s.entries.lookup key = some e → EntryOk win s key e
  lease : ∀ lease ∈ s.leases, LeaseOk win s.clock lease
  call : ∀ id c, s.calls id = some c → c.now ≤ s.clock ∧ 0 < c.cost
  clear : Clear win.windowMs s.clock

theorem Coupled.new {win : FixedWindow.Config} (hdouble : Unrounded win.windowMs) :
    Coupled win (.new : Node Sizer) where
  entry := by rintro key e ⟨⟩
  lease := by rintro lease ⟨⟩
  call := by rintro id c ⟨⟩
  clear := clear_zero hdouble

section Preservation

variable {win : FixedWindow.Config} {cfg : Config Sizer} {x : Lapses} {s s' : Node Sizer}
  {key : String} {e : Entry Sizer}

theorem EntryOk.of_credits_eq_zero (h : e.credits = 0) : EntryOk win s key e where
  nonneg := h.ge
  decision hpos := absurd h hpos.ne'
  leasedAt_le hpos := absurd h hpos.ne'
  lease_le hpos := absurd h hpos.ne'
  call_le hpos := absurd h hpos.ne'

/-- An entry may lose credits. -/
theorem EntryOk.of_le (h : EntryOk win s key e) {f : Entry Sizer} (hnn : 0 ≤ f.credits)
    (hle : f.credits ≤ e.credits) (hdecision : f.lastDecision = e.lastDecision)
    (hleasedAt : f.leasedAt = e.leasedAt) : EntryOk win s key f := by
  refine ⟨hnn, fun hpos => ?_, fun hpos => ?_, fun hpos => ?_, fun hpos => ?_⟩
  · rw [hdecision, hleasedAt]
    exact h.decision (hpos.trans_le hle)
  · rw [hleasedAt]
    exact h.leasedAt_le (hpos.trans_le hle)
  · rw [hleasedAt]
    exact h.lease_le (hpos.trans_le hle)
  · rw [hleasedAt]
    exact h.call_le (hpos.trans_le hle)

/-- The clock may move on, leases may settle and calls may end. -/
theorem EntryOk.mono (h : EntryOk win s key e) (hclock : s.clock ≤ s'.clock)
    (hleases : ∀ lease' ∈ s'.leases, lease'.stage.settled = false → ∃ lease ∈ s.leases,
      lease.key = lease'.key ∧ lease.now = lease'.now ∧ lease.stage.settled = false)
    (hcalls : ∀ id c, s'.calls id = some c → s.calls id = some c) : EntryOk win s' key e where
  nonneg := h.nonneg
  decision := h.decision
  leasedAt_le hpos := (h.leasedAt_le hpos).trans hclock
  lease_le hpos lease' hmem hkey hflight := by
    obtain ⟨lease, hmem₀, hkey₀, hnow₀, hflight₀⟩ := hleases lease' hmem hflight
    rw [← hnow₀]
    exact h.lease_le hpos lease hmem₀ (hkey₀.trans hkey) hflight₀
  call_le hpos id c hc hkey := h.call_le hpos id c (hcalls id c hc) hkey

theorem Coupled.setEntry (h : Coupled win s) (he : EntryOk win s key e) :
    Coupled win (s.setEntry key e) := by
  have hlift : ∀ key' e', EntryOk win s key' e' → EntryOk win (s.setEntry key e) key' e' :=
    fun _ _ hok => ⟨hok.nonneg, hok.decision, hok.leasedAt_le, hok.lease_le, hok.call_le⟩
  refine ⟨fun key' e' he' => hlift key' e' ?_, h.lease, h.call, h.clear⟩
  rw [Node.setEntry_entries, OrderedMap.lookup_set] at he'
  split at he'
  · rename_i hkey
    obtain rfl := Option.some.inj he'
    exact hkey ▸ he
  · exact h.entry key' e' he'

theorem Coupled.retain (h : Coupled win s) (keep : String → Entry Sizer → Bool) :
    Coupled win (s.retain keep) := by
  refine ⟨fun key e he => ?_, h.lease, h.call, h.clear⟩
  rw [Node.retain_entries, OrderedMap.lookup_filter, Option.filter_eq_some_iff] at he
  have hok := h.entry key e he.1
  exact ⟨hok.nonneg, hok.decision, hok.leasedAt_le, hok.lease_le, hok.call_le⟩

theorem Coupled.tick (h : Coupled win s) {now : ℚ} (hle : s.clock ≤ now)
    (hclear : Clear win.windowMs now) : Coupled win (s.tick now) where
  entry key e he := (h.entry key e he).mono hle
    (fun lease hmem hflight => ⟨lease, hmem, rfl, rfl, hflight⟩) fun _ _ hc => hc
  lease lease hmem := ⟨(h.lease lease hmem).now_le.trans hle, (h.lease lease hmem).pos,
    (h.lease lease hmem).reply⟩
  call id c hc := ⟨(h.call id c hc).1.trans hle, (h.call id c hc).2⟩
  clear := hclear

theorem Coupled.setLease (h : Coupled win s) {l : ℕ} {lease lease' : Lease}
    (hl : s.leases[l]? = some lease) (hkey : lease'.key = lease.key)
    (hnow : lease'.now = lease.now) (hamount : lease'.amount = lease.amount)
    (hsettled : lease'.stage.settled = false → lease.stage.settled = false)
    (hreply : ∀ d, lease'.stage = .replied d → d.resetAt = ceilEnd win.windowMs lease'.now) :
    Coupled win (s.setLease l lease') where
  entry key e he := by
    refine (h.entry key e he).mono le_rfl (fun lease₁ hmem hflight => ?_) fun _ _ hc => hc
    rcases List.mem_or_eq_of_mem_set hmem with hold | rfl
    · exact ⟨lease₁, hold, rfl, rfl, hflight⟩
    · exact ⟨lease, List.mem_of_getElem? hl, hkey.symm, hnow.symm, hsettled hflight⟩
  lease lease₁ hmem := by
    rcases List.mem_or_eq_of_mem_set hmem with hold | rfl
    · exact h.lease lease₁ hold
    · have hok := h.lease lease (List.mem_of_getElem? hl)
      exact ⟨hnow ▸ hok.now_le, hamount ▸ hok.pos, hreply⟩
  call := h.call
  clear := h.clear

theorem Coupled.finish (h : Coupled win s) (id : ℕ) : Coupled win (s.finish id) := by
  have hcalls : ∀ id' c, (s.finish id).calls id' = some c → s.calls id' = some c := by
    intro id' c hc
    rw [Node.finish_calls, Function.update_apply] at hc
    split at hc
    · cases hc
    · exact hc
  exact ⟨fun key e he => (h.entry key e he).mono le_rfl
    (fun lease hmem hflight => ⟨lease, hmem, rfl, rfl, hflight⟩) hcalls, h.lease,
    fun id' c hc => h.call id' c (hcalls id' c hc), h.clear⟩

/-- A call may suspend that is of no later window than the credits of its key. -/
theorem Coupled.suspend (h : Coupled win s) (id : ℕ) {c : Call} (hnow : c.now ≤ s.clock)
    (hcost : 0 < c.cost) (hwindow : ∀ e, s.entries.lookup c.key = some e → 0 < e.credits →
      startOf win.windowMs c.now ≤ startOf win.windowMs e.leasedAt) :
    Coupled win (s.suspend id c) where
  entry key e he := by
    have hok := h.entry key e he
    refine ⟨hok.nonneg, hok.decision, hok.leasedAt_le, hok.lease_le, fun hpos id' c' hc' hkey => ?_⟩
    rw [Node.suspend_calls, Function.update_apply] at hc'
    split at hc'
    · obtain rfl := Option.some.inj hc'
      subst hkey
      exact hwindow e he hpos
    · exact hok.call_le hpos id' c' hc' hkey
  lease := h.lease
  call id' c' hc' := by
    rw [Node.suspend_calls, Function.update_apply] at hc'
    split at hc'
    · obtain rfl := Option.some.inj hc'
      exact ⟨hnow, hcost⟩
    · exact h.call id' c' hc'
  clear := h.clear

/-- A lease may be issued that is of no later window than the credits of its key. -/
theorem Coupled.addLease (h : Coupled win s) (lease : Lease) (hnow : lease.now ≤ s.clock)
    (hpos : 0 < lease.amount) (hstage : lease.stage = .requested)
    (hwindow : ∀ e, s.entries.lookup lease.key = some e → 0 < e.credits →
      startOf win.windowMs lease.now ≤ startOf win.windowMs e.leasedAt) :
    Coupled win (s.addLease lease) where
  entry key e he := by
    have hok := h.entry key e he
    refine ⟨hok.nonneg, hok.decision, hok.leasedAt_le, fun hcr lease' hmem hkey hflight => ?_,
      hok.call_le⟩
    rcases List.mem_append.mp hmem with hold | hnew
    · exact hok.lease_le hcr lease' hold hkey hflight
    · obtain rfl := List.mem_singleton.mp hnew
      subst hkey
      exact hwindow e he hcr
  lease lease' hmem := by
    rcases List.mem_append.mp hmem with hold | hnew
    · exact h.lease lease' hold
    · obtain rfl := List.mem_singleton.mp hnew
      exact ⟨hnow, hpos, fun d hd => by simp [hstage] at hd⟩
  call := h.call
  clear := h.clear

/-! ### The window of a turn -/

/-- A turn of the loop is of no later window than the credits it finds. -/
theorem Coupled.origin_le (h : Coupled win s) (hcoupled : cfg.windowCoupled = true) {id : ℕ}
    {cost entered : ℚ} (he : s.entries.lookup key = some e)
    (horigin : Origin cfg x s id key cost entered e) (hpos : 0 < e.credits) :
    startOf win.windowMs entered ≤ startOf win.windowMs e.leasedAt := by
  have hok := h.entry key e he
  rcases horigin with ⟨-, hclock, -, -, hfresh⟩ | ⟨c, hc, hkey, -, rfl, -⟩
  · obtain ⟨d, hd, hend⟩ := hok.decision hpos
    have hlt : entered < ceilEnd win.windowMs e.leasedAt :=
      (hfresh hcoupled d hd hpos).trans_le hend
    exact startOf_le_of_lt_ceilEnd win.windowMs_pos (hclock ▸ h.clear) hlt
  · exact hok.call_le hpos id c hc hkey

theorem Coupled.origin_ok (h : Coupled win s) {id : ℕ} {cost entered : ℚ}
    (horigin : Origin cfg x s id key cost entered e) : entered ≤ s.clock ∧ 0 < cost := by
  rcases horigin with ⟨-, hclock, hcost, -, -⟩ | ⟨c, hc, -, rfl, rfl, -⟩
  · exact ⟨hclock.ge, hcost⟩
  · exact h.call id c hc

/-- Without a straddle, an admission finds credits of exactly its own window. -/
theorem Coupled.leasedAt_eq (h : Coupled win s) (hcoupled : cfg.windowCoupled = true) {id : ℕ}
    {cost entered : ℚ} (he : s.entries.lookup key = some e)
    (horigin : Origin cfg x s id key cost entered e) (hpos : 0 < e.credits)
    (hwin : startOf win.windowMs s.clock = startOf win.windowMs entered) :
    startOf win.windowMs e.leasedAt = startOf win.windowMs entered := by
  refine le_antisymm ?_ (h.origin_le hcoupled he horigin hpos)
  rw [← hwin]
  exact startOf_mono win.windowMs_pos ((h.entry key e he).leasedAt_le hpos)

/-- A grant that lands before its window's end is of the window of the clock. -/
theorem Coupled.reply_window (h : Coupled win s) {lease : Lease} (hmem : lease ∈ s.leases)
    {d : Decision} (hstage : lease.stage = .replied d) (hlt : s.clock < d.resetAt) :
    startOf win.windowMs s.clock = startOf win.windowMs lease.now := by
  have hok := h.lease lease hmem
  rw [hok.reply d hstage] at hlt
  exact le_antisymm (startOf_le_of_lt_ceilEnd win.windowMs_pos h.clear hlt)
    (startOf_mono win.windowMs_pos hok.now_le)

end Preservation

/-! ### The accounts of a node -/

/-- What a map slot holds for the window starting at `w`. -/
def heldBy (win : FixedWindow.Config) (slot : Option (Entry Sizer)) (w : ℚ) : ℚ :=
  match slot with
  | some e => if startOf win.windowMs e.leasedAt = w then e.credits else 0
  | none => 0

/-- What a node holds for account `k`. -/
def held (win : FixedWindow.Config) (s : Node Sizer) (k : String × ℚ) : ℚ :=
  heldBy win (s.entries.lookup k.1) k.2 + inFlight win s.leases k

section Held

variable {win : FixedWindow.Config} {cfg : Config Sizer} {s s' : Node Sizer} {k : String × ℚ}
  {key : String} {e : Entry Sizer}

theorem Coupled.heldBy_nonneg (h : Coupled win s) (key : String) (w : ℚ) :
    0 ≤ heldBy win (s.entries.lookup key) w := by
  unfold heldBy
  cases he : s.entries.lookup key with
  | none => exact le_rfl
  | some e =>
    dsimp only
    split
    · exact (h.entry key e he).nonneg
    · exact le_rfl

theorem Coupled.held_nonneg (h : Coupled win s) : 0 ≤ held win s k :=
  add_nonneg (h.heldBy_nonneg k.1 k.2)
    (inFlight_nonneg fun lease hmem => (h.lease lease hmem).pos.le)

/-- Writing an entry changes what its slot holds. -/
theorem held_setEntry (e' : Entry Sizer) (he : s.entries.lookup key = some e) :
    held win (s.setEntry key e') k = held win s k +
      if k.1 = key then heldBy win (some e') k.2 - heldBy win (some e) k.2 else 0 := by
  unfold held
  rw [Node.setEntry_entries, Node.setEntry_leases, OrderedMap.lookup_set]
  by_cases hkey : key = k.1
  · subst hkey
    rw [if_pos rfl, if_pos rfl, he]
    ring
  · rw [if_neg hkey, if_neg (Ne.symm hkey)]
    ring

/-- An entry that keeps its window changes what it holds by the change of its credits. -/
theorem heldBy_of_leasedAt_eq (e e' : Entry Sizer) (h : e'.leasedAt = e.leasedAt) (w : ℚ) :
    heldBy win (some e') w = heldBy win (some e) w +
      if startOf win.windowMs e.leasedAt = w then e'.credits - e.credits else 0 := by
  simp only [heldBy, h]
  split <;> ring

/-- Writing an entry again with its window and credits changes nothing. -/
theorem held_setEntry_same (he : s.entries.lookup key = some e) {e' : Entry Sizer}
    (hleasedAt : e'.leasedAt = e.leasedAt) (hcredits : e'.credits = e.credits) :
    held win (s.setEntry key e') k = held win s k := by
  rw [held_setEntry e' he, heldBy_of_leasedAt_eq _ _ hleasedAt, hcredits]
  simp

/-- An entry without credits holds nothing, whatever its window. -/
theorem heldBy_of_credits_eq_zero (h : e.credits = 0) (w : ℚ) : heldBy win (some e) w = 0 := by
  simp [heldBy, h]

theorem held_setLease {l : ℕ} {lease : Lease} (lease' : Lease) (hl : s.leases[l]? = some lease) :
    held win (s.setLease l lease') k
      = held win s k - lease.repliedTo win k + lease'.repliedTo win k := by
  rw [held, held, Node.setLease_entries, Node.setLease_leases, inFlight_set lease' hl]
  ring

theorem held_addLease_requested {lease : Lease} (h : lease.stage = .requested) :
    held win (s.addLease lease) k = held win s k := by
  have hzero : lease.repliedTo win k = 0 := by simp [Lease.repliedTo, h]
  rw [held, held, Node.addLease_entries, Node.addLease_leases, inFlight_append, hzero, add_zero]

/-- An admission from credits of its own window takes its cost out of that window. -/
theorem held_spend (he : s.entries.lookup key = some e) {cost entered : ℚ}
    (hplain : Unrounded (e.credits - cost))
    (hwin : startOf win.windowMs e.leasedAt = startOf win.windowMs entered) :
    held win (s.setEntry key (e.spend cost)) k
      = held win s k + if (key, startOf win.windowMs entered) = k then -cost else 0 := by
  obtain ⟨key', w⟩ := k
  rw [held_setEntry _ he, heldBy_of_leasedAt_eq e (e.spend cost) rfl, hwin]
  have hcredits : (e.spend cost).credits - e.credits = -cost := by
    rw [show (e.spend cost).credits = e.credits - cost from hplain]
    ring
  simp only [Prod.mk.injEq, hcredits]
  by_cases hkey : key' = key
  · subst hkey
    by_cases hw : startOf win.windowMs entered = w <;> simp [hw]
  · simp [hkey, Ne.symm hkey]

theorem EntryOk.spend (h : EntryOk win s key e) {cost : ℚ} (hpos : 0 < cost)
    (hcost : cost ≤ e.credits) (hplain : Unrounded (e.credits - cost)) :
    EntryOk win s key (e.spend cost) := by
  have hcredits : (e.spend cost).credits = e.credits - cost := hplain
  refine h.of_le ?_ ?_ rfl rfl
  · rw [hcredits]
    exact sub_nonneg.mpr hcost
  · rw [hcredits]
    exact sub_le_self _ hpos.le

end Held

/-! ### The step rule -/

section Moves

variable {win : FixedWindow.Config} {cfg : Config Sizer} {x : Lapses} {s s' : Node Sizer}
  {evs : List Event}

/-- What an entry is after a grant of its own window landed in it. -/
theorem Coupled.land (h : Coupled win s) (hlate : ¬ x.late) {l : ℕ} {lease : Lease} {d : Decision}
    {e : Entry Sizer} (hl : s.leases[l]? = some lease) (hstage : lease.stage = .replied d)
    (he : s.entries.lookup lease.key = some e)
    (hintime : d.allowed = true → s.clock < d.resetAt ∨ x.late) :
    EntryOk win (s.setLease l { lease with stage := .delivered d }) lease.key (e.land lease d) := by
  have hmem := List.mem_of_getElem? hl
  have hlease := h.lease lease hmem
  have hdone : Coupled win (s.setLease l { lease with stage := .delivered d }) :=
    h.setLease hl rfl rfl rfl (by simp [Stage.settled]) (by simp)
  have hok := hdone.entry lease.key e he
  have hflight : lease.stage.settled = false := by simp [hstage, Stage.settled]
  unfold Entry.land
  split
  · rename_i hallowed
    have hlt : s.clock < d.resetAt := (hintime hallowed).resolve_right hlate
    have hwindow := h.reply_window hmem hstage hlt
    have hle : ∀ now, now ≤ s.clock →
        startOf win.windowMs now ≤ startOf win.windowMs lease.now := fun now hnow =>
      hwindow ▸ startOf_mono win.windowMs_pos hnow
    refine ⟨fl_nonneg (add_nonneg hok.nonneg hlease.pos.le),
      fun _ => ⟨d, rfl, (hlease.reply d hstage).le⟩,
      fun _ => hlease.now_le, fun _ lease' hmem' _ _ => hle _ (hdone.lease lease' hmem').now_le,
      fun _ id c hc _ => hle _ (h.call id c hc).1⟩
  · refine ⟨hok.nonneg, fun hpos => ⟨d, rfl, ?_⟩, hok.leasedAt_le, hok.lease_le, hok.call_le⟩
    rw [hlease.reply d hstage]
    exact ceilEnd_mono ((h.entry lease.key e he).lease_le hpos lease hmem rfl hflight)

/-- A grant that lands in its own window adds to what the slot holds for that window. -/
theorem Coupled.heldBy_land (h : Coupled win s) (hlate : ¬ x.late) {l : ℕ} {lease : Lease}
    {d : Decision} {e : Entry Sizer} (hl : s.leases[l]? = some lease)
    (hstage : lease.stage = .replied d) (he : s.entries.lookup lease.key = some e)
    (hintime : d.allowed = true → s.clock < d.resetAt ∨ x.late)
    (hplain : d.allowed = true → Unrounded (e.credits + lease.amount)) (w : ℚ) :
    heldBy win (some (e.land lease d)) w = heldBy win (some e) w +
      if d.allowed ∧ startOf win.windowMs lease.now = w then lease.amount else 0 := by
  unfold Entry.land
  cases hallowed : d.allowed with
  | false => simp [heldBy]
  | true =>
    have hmem := List.mem_of_getElem? hl
    have hlt : s.clock < d.resetAt := (hintime hallowed).resolve_right hlate
    have hok := h.entry lease.key e he
    have hsum : fl (e.credits + lease.amount) = e.credits + lease.amount := hplain hallowed
    rcases hok.nonneg.eq_or_lt with hzero | hpos
    · simp only [heldBy, hsum, if_true]
      simp [← hzero]
    · have hwindow :
          startOf win.windowMs e.leasedAt = startOf win.windowMs lease.now := by
        refine le_antisymm ?_ (hok.lease_le hpos lease hmem rfl (by simp [hstage, Stage.settled]))
        rw [← h.reply_window hmem hstage hlt]
        exact startOf_mono win.windowMs_pos (hok.leasedAt_le hpos)
      simp only [heldBy, if_true, hwindow, true_and, hsum]
      split <;> ring

/-- **Every move ties the credits to one window**, save late grants and straddling checks. -/
theorem Coupled.move (h : Coupled win s) (hcoupled : cfg.windowCoupled = true)
    (hlate : ¬ x.late) (hstraddles : ¬ x.straddles) (hrounds : ¬ x.rounds)
    (hmove : Move win cfg (forward win) x s evs s') : Coupled win s' := by
  cases hmove with
  | tick now htick => exact h.tick htick.1 htick.2
  | upkeep rs => exact ⟨fun key e he => ⟨(h.entry key e he).nonneg, (h.entry key e he).decision,
      (h.entry key e he).leasedAt_le, (h.entry key e he).lease_le, (h.entry key e he).call_le⟩,
      h.lease, h.call, h.clear⟩
  | touch key e e' he hcredits hdecision hleasedAt hpending hsizer =>
    have hok := h.entry key e he
    refine h.setEntry ?_
    rcases hcredits with hsame | ⟨-, hzero⟩
    · exact hok.of_le (hsame ▸ hok.nonneg) hsame.le hdecision hleasedAt
    · exact .of_credits_eq_zero hzero
  | retain keep hdrops => exact h.retain keep
  | create key hnone => exact h.setEntry (.of_credits_eq_zero rfl)
  | spend id key cost entered e d he horigin hcost hwin hplain hd =>
    exact (h.setEntry ((h.entry key e he).spend (h.origin_ok horigin).2 hcost
      (hplain.resolve_right hrounds))).finish id
  | spendRefill id key cost entered leaseNow e d he horigin hcost hwin hleaseWin hplain hd htick
      hlow =>
    have hpos := (h.origin_ok horigin).2
    have hwindow := h.leasedAt_eq hcoupled he horigin (hpos.trans_le hcost)
      (hwin.resolve_right hstraddles)
    have hspent := ((h.setEntry ((h.entry key e he).spend hpos hcost
      (hplain.resolve_right hrounds))).finish id).tick htick.1 htick.2
    have hentry := hspent.entry key (e.spend cost) (by simp)
    have hset := hspent.setEntry (hentry.of_le (f := { e.spend cost with refilling := true })
      hentry.nonneg le_rfl rfl rfl)
    refine hset.addLease _ le_rfl (zero_lt_one.trans_le (le_leaseSizeFor cfg _)) rfl ?_
    intro e' he' hcr
    obtain rfl : { e.spend cost with refilling := true } = e' := by simpa using he'
    rw [hleaseWin.resolve_right hstraddles]
    exact hwindow.ge
  | ride id c e he horigin hshort hpending =>
    obtain ⟨hnow, hcost⟩ := h.origin_ok horigin
    refine h.suspend id hnow hcost fun e' he' hpos => ?_
    obtain rfl : e = e' := Option.some.inj (he.symm.trans he')
    exact h.origin_le hcoupled he horigin hpos
  | issue id key cost entered leaseNow e he horigin hshort hpending hleaseWin htick =>
    obtain ⟨hnow, hcost⟩ := h.origin_ok horigin
    have hle : 0 < e.credits →
        startOf win.windowMs entered ≤ startOf win.windowMs e.leasedAt := fun hpos =>
      h.origin_le hcoupled he horigin hpos
    have hticked := h.tick htick.1 htick.2
    have hissued := hticked.addLease ⟨key, max (leaseSizeFor cfg e) cost, leaseNow, false,
      .requested, false, id⟩ le_rfl (hcost.trans_le (le_max_right _ _)) rfl fun e' he' hpos => by
        obtain rfl : e = e' := Option.some.inj (he.symm.trans he')
        rw [hleaseWin.resolve_right hstraddles]
        exact hle hpos
    have hentry := hissued.entry key e he
    have hset := hissued.setEntry (hentry.of_le
      (f := { e with pending := some s.leases.length }) hentry.nonneg le_rfl rfl rfl)
    refine hset.suspend id (hnow.trans htick.1) hcost fun e' he' hpos => ?_
    obtain rfl : { e with pending := some s.leases.length } = e' := by simpa using he'
    exact hle hpos
  | refuse id ev hcall hev => exact h.finish id
  | serve l lease d hl hstage hd =>
    refine h.setLease hl rfl rfl rfl (by simp [hstage, Stage.settled]) fun d' hd' => ?_
    obtain rfl := Stage.replied.inj hd'
    exact hd
  | lose l lease hl hflight => exact h.setLease hl rfl rfl rfl (fun _ => hflight) (by simp)
  | land l lease d hl hstage => exact h.setLease hl rfl rfl rfl (by simp [Stage.settled]) (by simp)
  | credit l lease d e hl hstage he hrefill hondemand hplain =>
    have hdone : Coupled win (s.setLease l { lease with stage := .delivered d }) :=
      h.setLease hl rfl rfl rfl (by simp [Stage.settled]) (by simp)
    refine hdone.setEntry (h.land hlate hl hstage he fun hallowed => ?_)
    cases hr : lease.refill with
    | true => exact .inl (hrefill hr hcoupled)
    | false => exact hondemand hr hallowed
  | cleaned l lease hl hsettled =>
    exact h.setLease hl rfl rfl rfl (fun hs => hs) (h.lease lease (List.mem_of_getElem? hl)).reply
  | clean l lease e hl hsettled he =>
    have hok := h.entry lease.key e he
    have hclean : (e.clean l lease.refill).credits = e.credits ∧
        (e.clean l lease.refill).lastDecision = e.lastDecision ∧
        (e.clean l lease.refill).leasedAt = e.leasedAt := by
      unfold Entry.clean
      split <;> exact ⟨rfl, rfl, rfl⟩
    exact h.setEntry (hok.of_le (hclean.1 ▸ hok.nonneg) hclean.1.le hclean.2.1 hclean.2.2)

/-- **The step rule of a node's accounts.** -/
theorem held_move_le (h : Coupled win s) (hcoupled : cfg.windowCoupled = true)
    (hlate : ¬ x.late) (hstraddles : ¬ x.straddles) (hrounds : ¬ x.rounds)
    (hmove : Move win cfg (forward win) x s evs s') (k : String × ℚ) :
    held win s' k ≤ held win s k + balance (ledger (posting win .atEntry) evs) k := by
  cases hmove with
  | tick now htick => simp [held]
  | upkeep rs => simp [held]
  | touch key e e' he hcredits hdecision hleasedAt hpending hsizer =>
    have hold := h.heldBy_nonneg key k.2
    rw [held_setEntry _ he]
    rw [he] at hold
    rcases hcredits with hsame | ⟨-, hzero⟩
    · rw [heldBy_of_leasedAt_eq _ _ hleasedAt, hsame]
      simp
    · rw [heldBy_of_credits_eq_zero hzero]
      simp only [ledger_nil, balance_nil]
      split <;> linarith
  | retain keep hdrops =>
    have hold := h.heldBy_nonneg k.1 k.2
    simp only [held, Node.retain_entries, Node.retain_leases, OrderedMap.lookup_filter, ledger_nil,
      balance_nil, add_zero]
    refine add_le_add_left ?_ _
    cases he : s.entries.lookup k.1 with
    | none => exact le_rfl
    | some e =>
      rw [he] at hold
      cases hk : keep k.1 e with
      | true => rw [Option.filter_some, if_pos hk]
      | false =>
        rw [Option.filter_some, if_neg (by simp [hk])]
        exact hold
  | create key hnone =>
    simp only [held, Node.setEntry_entries, Node.setEntry_leases, OrderedMap.lookup_set, ledger_nil,
      balance_nil, add_zero]
    refine add_le_add_left ?_ _
    split
    · rename_i hkey
      rw [heldBy_of_credits_eq_zero rfl]
      exact h.heldBy_nonneg k.1 k.2
    · exact le_rfl
  | spend id key cost entered e d he horigin hcost hwin hplain hd =>
    have hpos := (h.origin_ok horigin).2
    have hwindow := h.leasedAt_eq hcoupled he horigin (hpos.trans_le hcost)
      (hwin.resolve_right hstraddles)
    have hspent := held_spend (k := k) he (hplain.resolve_right hrounds) hwindow
    have hfinish : held win ((s.setEntry key (e.spend cost)).finish id) k
        = held win (s.setEntry key (e.spend cost)) k := rfl
    rw [hfinish, hspent]
    simp [posting, hd, Counted.reading]
  | spendRefill id key cost entered leaseNow e d he horigin hcost hwin hleaseWin hplain hd htick
      hlow =>
    have hpos := (h.origin_ok horigin).2
    have hwindow := h.leasedAt_eq hcoupled he horigin (hpos.trans_le hcost)
      (hwin.resolve_right hstraddles)
    have hspent := held_spend (k := k) he (hplain.resolve_right hrounds) hwindow
    have hticked : held win (((s.setEntry key (e.spend cost)).finish id).tick leaseNow) k
        = held win (s.setEntry key (e.spend cost)) k := rfl
    have hflag : held win ((((s.setEntry key (e.spend cost)).finish id).tick leaseNow).setEntry key
        { e.spend cost with refilling := true }) k
        = held win (((s.setEntry key (e.spend cost)).finish id).tick leaseNow) k :=
      held_setEntry_same (e := e.spend cost) (by simp) rfl rfl
    rw [held_addLease_requested rfl, hflag, hticked, hspent]
    simp [posting, hd, Counted.reading]
  | ride id c e he horigin hshort hpending => simp [held]
  | issue id key cost entered leaseNow e he horigin hshort hpending hleaseWin htick =>
    have hsuspend : ∀ (s : Node Sizer) c, held win (s.suspend id c) k = held win s k :=
      fun _ _ => rfl
    have hticked : held win (s.tick leaseNow) k = held win s k := rfl
    have hpend : ∀ s₁ : Node Sizer, s₁.entries.lookup key = some e →
        held win (s₁.setEntry key { e with pending := some s.leases.length }) k = held win s₁ k :=
      fun _ he₁ => held_setEntry_same he₁ rfl rfl
    rw [hsuspend, hpend _ (by exact he), held_addLease_requested rfl, hticked]
    simp
  | refuse id ev hcall hev =>
    rcases hev with ⟨err, rfl⟩ | rfl | ⟨key, cost, entered, at', d, rfl, hd⟩
    · simp [held, posting]
    · simp [held, posting]
    · simp [held, posting, hd]
  | serve l lease d hl hstage hd =>
    have hpos := (h.lease lease (List.mem_of_getElem? hl)).pos
    rw [held_setLease _ hl, repliedTo_requested hstage]
    cases hallowed : d.allowed with
    | false => simp [Lease.repliedTo, hallowed]
    | true => simp [Lease.repliedTo, hallowed, posting]
  | lose l lease hl hflight =>
    have hnn : 0 ≤ lease.repliedTo win k := repliedTo_nonneg
      (h.lease lease (List.mem_of_getElem? hl)).pos.le
    rw [held_setLease _ hl,
      repliedTo_of_settled { lease with stage := .failed } rfl]
    simp only [ledger_nil, balance_nil]
    linarith
  | land l lease d hl hstage =>
    have hnn : 0 ≤ lease.repliedTo win k := repliedTo_nonneg
      (h.lease lease (List.mem_of_getElem? hl)).pos.le
    rw [held_setLease _ hl,
      repliedTo_of_settled { lease with stage := .delivered d } rfl]
    simp only [ledger_nil, balance_nil]
    linarith
  | credit l lease d e hl hstage he hrefill hondemand hplain =>
    -- the credits gained are those the reply held
    have hland := h.heldBy_land hlate hl hstage he (fun hallowed => by
      cases hr : lease.refill with
      | true => exact .inl (hrefill hr hcoupled)
      | false => exact hondemand hr hallowed)
      (fun hallowed => (hplain hallowed).resolve_right hrounds) k.2
    have hreplied : lease.repliedTo win k = if k.1 = lease.key then
        if d.allowed ∧ startOf win.windowMs lease.now = k.2 then lease.amount else 0
        else 0 := by
      obtain ⟨key, w⟩ := k
      simp only [Lease.repliedTo, hstage, Prod.mk.injEq]
      by_cases hkey : lease.key = key
      · simp [hkey]
      · simp [hkey, Ne.symm hkey]
    rw [held_setEntry (e := e) _ (by exact he), held_setLease _ hl, hland, hreplied,
      repliedTo_of_settled { lease with stage := .delivered d } rfl]
    simp only [ledger_nil, balance_nil]
    split <;> linarith
  | cleaned l lease hl hsettled =>
    have hsame : Lease.repliedTo win k { lease with cleaned := true } = lease.repliedTo win k := rfl
    rw [held_setLease _ hl, hsame]
    simp
  | clean l lease e hl hsettled he =>
    have hclean : (e.clean l lease.refill).leasedAt = e.leasedAt ∧
        (e.clean l lease.refill).credits = e.credits := by
      unfold Entry.clean
      split <;> exact ⟨rfl, rfl⟩
    rw [held_setEntry_same he hclean.1 hclean.2]
    simp

end Moves

/-! ### The nodes together -/

instance forward.decidable (win : FixedWindow.Config) (clock : ℚ) (leases : List Lease)
    (calls : ℕ → Option Call) (now : ℚ) : Decidable (forward win clock leases calls now) :=
  inferInstanceAs (Decidable (_ ∧ _))

/-- The conditions on a step: the node's clock readings go forward, a check reads the clock in the
window of its entry only, an on-demand grant lands before the end of its window, the store applies
leases in window order and serves no reset, and no balance or count is rounded. -/
def CoupledStep {ι : Type} (win : FixedWindow.Config) (cfg : ι → Config Sizer)
    (s : Parties ι L2 (Node Sizer)) (a : ι × Act) : Prop :=
  ReadingsOk (forward win) (s.party a.1) a.2 ∧ straddles win (s.party a.1) a.2 = false ∧
    landsLate (s.party a.1) a.2 = false ∧ ServesInOrder win s a = true ∧
    PlainCredits (cfg a.1) (s.party a.1) a.2 ∧ CountsPlainly win s a

instance CoupledStep.decidable {ι : Type} (win : FixedWindow.Config) (cfg : ι → Config Sizer)
    (s : Parties ι L2 (Node Sizer)) (a : ι × Act) : Decidable (CoupledStep win cfg s a) :=
  inferInstanceAs (Decidable (_ ∧ _))

omit [Rounding] in
instance {ι : Type} (win : FixedWindow.Config) (cfg : ι → Config Sizer)
    (s : Parties ι L2 (Node Sizer)) (a : ι × Act) :
    Decidable (@CoupledStep doubles _ _ win cfg s a) :=
  @CoupledStep.decidable doubles _ _ win cfg s a

section Fleet

variable {ι : Type} [DecidableEq ι] {win : FixedWindow.Config} {cfg : ι → Config Sizer}

theorem backed_of_run (hdouble : Unrounded win.windowMs)
    (hcoupled : ∀ i, (cfg i).windowCoupled = true) {log : List (ι × Event)}
    {s : Parties ι L2 (Node Sizer)}
    (hrun : (fleet win cfg).Run (CoupledStep win cfg) (start ι) log s) (i : ι) :
    Coupled win (s.party i) ∧
      Backed (held win (s.party i)) (ledger (posting win .atEntry) (Parties.outputsOf i log)) := by
  refine Parties.run_party (I := fun _ s log =>
    Coupled win s ∧ Backed (held win s) (ledger (posting win .atEntry) log))
    (fun _ => ⟨.new hdouble, .nil fun k => ?_⟩) ?_ hrun i
  · show held win (.new : Node Sizer) k ≤ 0
    simp [held, heldBy, inFlight, Node.new]
  · intro s i a l2 s' evs log hinv hok hstep
    refine Chain.invariant (I := fun s log =>
      Coupled win s ∧ Backed (held win s) (ledger (posting win .atEntry) log))
      (fun s log s' new hI hmove => ?_) (step_moves hstep hok.1) hinv
    have hstraddles : ¬ (lapses win (cfg i) _ a).straddles := ne_true_of_eq_false hok.2.1
    have hlate : ¬ (lapses win (cfg i) _ a).late := ne_true_of_eq_false hok.2.2.1
    have hrounds : ¬ (lapses win (cfg i) _ a).rounds := not_not_intro hok.2.2.2.2.1
    refine ⟨hI.1.move (hcoupled i) hlate hstraddles hrounds hmove, ?_⟩
    rw [ledger_append]
    exact hI.2.append (held_move_le hI.1 (hcoupled i) hlate hstraddles hrounds hmove)

/-- **Window-coupled leasing stays within the limit.** In every run whose steps all meet the
conditions, for any nodes with any batch sizes, low-water marks and learners: the checks of a key
that entered in a window and were admitted cost at most the limit, however many nodes there are;
and at each node they cost at most what leases of that node were charged to that very window. -/
theorem windowCoupled_admitted_le_limit (hdouble : Unrounded win.windowMs)
    (hcoupled : ∀ i, (cfg i).windowCoupled = true)
    {log : List (ι × Event)} {s : Parties ι L2 (Node Sizer)}
    (hrun : (fleet win cfg).Run (CoupledStep win cfg) (start ι) log s) :
    (∀ key w, totalAdmitted win .atEntry key w (log.map Prod.snd) ≤ win.limit) ∧
    ∀ i key w, totalAdmitted win .atEntry key w (Parties.outputsOf i log)
      ≤ totalCharged win key w (Parties.outputsOf i log) := by
  have hsolvent : ∀ i k, 0 ≤ balance
      (ledger (posting win .atEntry) (Parties.outputsOf i log)) k := fun i k =>
    (backed_of_run hdouble hcoupled hrun i).1.held_nonneg.trans
      ((backed_of_run hdouble hcoupled hrun i).2 k)
  constructor
  · intro key w
    have hcharged := totalCharged_le_limit
      (fun _ _ h => ⟨h.2.2.2.1, h.2.2.2.2.2⟩) hrun key w
    have hadmitted := debited_le_of_forall_party hsolvent fun k => k.2 = (key, w)
    rw [credited_partyLedger _ fun k => k = (key, w), debited_partyLedger _ fun k => k = (key, w),
      credited_ledger, debited_ledger] at hadmitted
    exact hadmitted.trans hcharged
  · intro i key w
    have hadmitted := debited_le_credited (hsolvent i) fun k => k = (key, w)
    rwa [credited_ledger, debited_ledger] at hadmitted

end Fleet

end Rounded

/-! ### The conditions are needed -/

/-- A fixed window of two a second. -/
def twoASecond : FixedWindow.Config := ⟨2, 1000, pair_pos, second_pos⟩

/-- A window-coupled node that leases in twos. -/
def coupledPairs : Config Unit where
  batch := 2
  lowWater := 0
  returnIdleAfterMs := none
  windowCoupled := true
  makeSizer := none
  size _ := 1
  observe z _ := z
  maxKeys := none
  keyPrefix := none
  one_le_batch := one_le_pair

/-- Two nodes lease in one window and one of them again in the next. -/
def twoNodes : List (Bool × Act) :=
  [(true, .check 0 "k" 1 10 10), (true, .serve 0), (false, .check 0 "k" 1 20 20), (false, .serve 0),
    (true, .deliver 0 30), (true, .resume 0 30 30), (false, .deliver 0 40),
    (false, .resume 0 40 40), (true, .clean 0), (true, .check 1 "k" 1 1010 1010), (true, .serve 1),
    (true, .deliver 1 1020), (true, .resume 1 1020 1020)]

theorem windowCoupled_admitted_le_limit_two_nodes :
    @totalAdmitted doubles twoASecond .atEntry "k" 0
      ((((@fleet doubles _ Bool _ twoASecond fun _ => coupledPairs).exec (start Bool) twoNodes).get
        (by decide +kernel)).2.map Prod.snd) ≤ 2 :=
  (@windowCoupled_admitted_le_limit doubles _ Bool _ twoASecond _ (by decide +kernel)
    (fun _ => rfl) _ _ (run_of_isSome (by decide +kernel) (by decide +kernel))).1 "k" 0

/-- A check leases in one window, another enters in the next and rides the lease, and the reply
lands late. Both are admitted on it, and the next window then gets its own two. -/
def lateLease : List (Unit × Act) :=
  [((), .check 0 "k" 1 990 990), ((), .serve 0), ((), .check 1 "k" 1 1010 1010),
    ((), .deliver 0 1020), ((), .resume 0 1020 1020), ((), .resume 1 1020 1020), ((), .clean 0),
    ((), .check 2 "k" 1 1030 1030), ((), .serve 1), ((), .deliver 1 1040),
    ((), .resume 2 1040 1040), ((), .check 3 "k" 1 1050 1050)]

/-- **A late lease admits in the next window.** One node admits three units that entered in the
second window, of which the limit is two. -/
theorem late_lease_admits_in_next_window :
    ¬ ∀ (log : List (Unit × Event)) (s : Parties Unit L2 (Node Unit)),
      (@fleet doubles _ Unit _ twoASecond fun _ => coupledPairs).Run (fun _ _ => True) (start Unit)
          log s →
        ∀ key w, @totalAdmitted doubles twoASecond .atEntry key w (log.map Prod.snd)
          ≤ twoASecond.limit := by
  intro h
  have hrun := run_of_isSome (m := @fleet doubles _ Unit _ twoASecond fun _ => coupledPairs)
    (p := fun _ _ => True) (s := start Unit) (l := lateLease) (by decide +kernel)
    (by decide +kernel)
  exact absurd (h _ _ hrun "k" 1000) (by decide +kernel)

end ThrottleKit.Leased
