import ThrottleKit.TwoTier.Leased

/-!
# The leased mode's steps as moves

One action of a node runs a stretch of its code, with several effects on its state. Here each
stretch is taken apart into moves with one effect each, stated with what holds at that point of the
code; an invariant of a node is then proved by cases on the move.

The guarantees of the leased mode do not survive everything a step may do. A move says which of the
`Lapses` it may owe its effect to, and a step without a lapse is made of moves without it
(`step_moves`). What the clock readings must satisfy is a parameter, `tick`, of the moves.

## Main definitions

* `Move`, `Lapses` — one effect on the state of a node, and what it may owe it to
* `lapses` — the lapses of a step

## Main results

* `step_moves` — every step is a sequence of moves
-/

namespace ThrottleKit.Leased

open Machine Rounding

variable {Sizer : Type}

/-! ### Field lemmas -/

namespace Node

variable (s : Node Sizer) (key : String) (e : Entry Sizer) (l id : ℕ) (lease : Lease) (c : Call)
  (now : ℚ) (keep : String → Entry Sizer → Bool)

@[simp] theorem setEntry_entries : (s.setEntry key e).entries = s.entries.set key e := rfl
@[simp] theorem setEntry_leases : (s.setEntry key e).leases = s.leases := rfl
@[simp] theorem setEntry_calls : (s.setEntry key e).calls = s.calls := rfl
@[simp] theorem setEntry_clock : (s.setEntry key e).clock = s.clock := rfl
@[simp] theorem setLease_entries : (s.setLease l lease).entries = s.entries := rfl
@[simp] theorem setLease_leases : (s.setLease l lease).leases = s.leases.set l lease := rfl
@[simp] theorem setLease_calls : (s.setLease l lease).calls = s.calls := rfl
@[simp] theorem setLease_clock : (s.setLease l lease).clock = s.clock := rfl
@[simp] theorem addLease_entries : (s.addLease lease).entries = s.entries := rfl
@[simp] theorem addLease_leases : (s.addLease lease).leases = s.leases ++ [lease] := rfl
@[simp] theorem addLease_calls : (s.addLease lease).calls = s.calls := rfl
@[simp] theorem addLease_clock : (s.addLease lease).clock = s.clock := rfl
@[simp] theorem suspend_entries : (s.suspend id c).entries = s.entries := rfl
@[simp] theorem suspend_leases : (s.suspend id c).leases = s.leases := rfl
@[simp] theorem suspend_clock : (s.suspend id c).clock = s.clock := rfl
@[simp] theorem finish_entries : (s.finish id).entries = s.entries := rfl
@[simp] theorem finish_leases : (s.finish id).leases = s.leases := rfl
@[simp] theorem finish_clock : (s.finish id).clock = s.clock := rfl
@[simp] theorem tick_entries : (s.tick now).entries = s.entries := rfl
@[simp] theorem tick_leases : (s.tick now).leases = s.leases := rfl
@[simp] theorem tick_calls : (s.tick now).calls = s.calls := rfl
@[simp] theorem tick_clock : (s.tick now).clock = now := rfl
@[simp] theorem retain_entries : (s.retain keep).entries = s.entries.filter keep := rfl
@[simp] theorem retain_leases : (s.retain keep).leases = s.leases := rfl
@[simp] theorem retain_calls : (s.retain keep).calls = s.calls := rfl
@[simp] theorem retain_clock : (s.retain keep).clock = s.clock := rfl

@[simp] theorem suspend_calls :
    (s.suspend id c).calls = Function.update s.calls id (some c) := rfl

@[simp] theorem finish_calls : (s.finish id).calls = Function.update s.calls id none := rfl

end Node

/-! ### The moves -/

variable [Rounding]

/-- What a step may do that the guarantees do not survive. -/
structure Lapses where
  /-- A check uses a clock reading of another window than that of its entry. -/
  straddles : Prop
  /-- An on-demand grant lands after its window. -/
  late : Prop
  /-- An entry is dropped while a lease of its key is in flight. -/
  drops : Prop
  /-- A check asks for another cost than one. -/
  bulk : Prop
  /-- A balance of credits is rounded. -/
  rounds : Prop

/-- No lease of `key` is in flight. -/
def Unleased (s : Node Sizer) (key : String) : Prop :=
  ∀ lease ∈ s.leases, lease.key = key → lease.stage.settled = true

/-- Where a turn of the loop comes from: a call that enters now, whose entry has no credits of a
window that has rolled, or a call whose lease has settled. -/
def Origin (cfg : Config Sizer) (x : Lapses) (s : Node Sizer) (id : ℕ) (key : String)
    (cost entered : ℚ) (e : Entry Sizer) : Prop :=
  (s.calls id = none ∧ s.clock = entered ∧ 0 < cost ∧ (cost = 1 ∨ x.bulk) ∧
    (cfg.windowCoupled = true → ∀ d, e.lastDecision = some d → 0 < e.credits →
      entered < d.resetAt)) ∨
  ∃ c, s.calls id = some c ∧ c.key = key ∧ c.cost = cost ∧ c.now = entered ∧
    ∃ lease, s.leases[c.lease]? = some lease ∧ lease.stage.settled = true

/-- A condition on a clock reading, given the reading before it and the leases and calls there
are. -/
abbrev Reading : Type := ℚ → List Lease → (ℕ → Option Call) → ℚ → Prop

/-- One effect on the state of a node. -/
inductive Move (win : FixedWindow.Config) (cfg : Config Sizer) (tick : Reading) (x : Lapses) :
    Node Sizer → List Event → Node Sizer → Prop
  /-- The clock is read. -/
  | tick {s : Node Sizer} (now : ℚ) (htick : tick s.clock s.leases s.calls now) :
      Move win cfg tick x s [] (s.tick now)
  /-- Only the resets under way change. -/
  | upkeep {s : Node Sizer} (rs : List String) : Move win cfg tick x s [] { s with resets := rs }
  /-- An entry is written again with its decision and pending lease, and its credits unless they
  are discarded. -/
  | touch {s : Node Sizer} (key : String) (e e' : Entry Sizer) (he : s.entries.lookup key = some e)
      (hcredits : e'.credits = e.credits ∨ (cfg.windowCoupled = true ∧ e'.credits = 0))
      (hdecision : e'.lastDecision = e.lastDecision)
      (hleasedAt : e'.leasedAt = e.leasedAt) (hpending : e'.pending = e.pending)
      (hsizer : e.sizer = none → e'.sizer = none) : Move win cfg tick x s [] (s.setEntry key e')
  /-- Entries are dropped. -/
  | retain {s : Node Sizer} (keep : String → Entry Sizer → Bool)
      (hdrops : ∀ key e, s.entries.lookup key = some e → keep key e = false →
        Unleased s key ∨ x.drops) : Move win cfg tick x s [] (s.retain keep)
  /-- An entry is created. -/
  | create {s : Node Sizer} (key : String) (h : s.entries.lookup key = none) :
      Move win cfg tick x s [] (s.setEntry key (.fresh cfg))
  /-- A call is admitted. -/
  | spend {s : Node Sizer} (id : ℕ) (key : String) (cost entered : ℚ) (e : Entry Sizer)
      (d : Decision) (he : s.entries.lookup key = some e)
      (horigin : Origin cfg x s id key cost entered e) (hcost : cost ≤ e.credits)
      (hwin : startOf win.windowMs s.clock = startOf win.windowMs entered ∨ x.straddles)
      (hplain : Unrounded (e.credits - cost) ∨ x.rounds) (hd : d.allowed = true) :
      Move win cfg tick x s [.decided id key cost entered s.clock d]
        ((s.setEntry key (e.spend cost)).finish id)
  /-- A call is admitted and issues a refill. -/
  | spendRefill {s : Node Sizer} (id : ℕ) (key : String) (cost entered leaseNow : ℚ)
      (e : Entry Sizer) (d : Decision) (he : s.entries.lookup key = some e)
      (horigin : Origin cfg x s id key cost entered e) (hcost : cost ≤ e.credits)
      (hwin : startOf win.windowMs s.clock = startOf win.windowMs entered ∨ x.straddles)
      (hleaseWin : startOf win.windowMs leaseNow = startOf win.windowMs entered ∨
        x.straddles)
      (hplain : Unrounded (e.credits - cost) ∨ x.rounds) (hd : d.allowed = true)
      (htick : tick s.clock s.leases s.calls leaseNow)
      (hlowWater : 0 < cfg.lowWater) :
      Move win cfg tick x s [.decided id key cost entered s.clock d]
        (((((s.setEntry key (e.spend cost)).finish id).tick leaseNow).setEntry key
          { e.spend cost with refilling := true }).addLease
            ⟨key, leaseSizeFor cfg (e.spend cost), leaseNow, true, .requested, false, id⟩)
  /-- A call suspends on the key's pending lease. -/
  | ride {s : Node Sizer} (id : ℕ) (c : Call) (e : Entry Sizer)
      (he : s.entries.lookup c.key = some e)
      (horigin : Origin cfg x s id c.key c.cost c.now e) (hshort : e.credits < c.cost)
      (hpending : e.pending = some c.lease) : Move win cfg tick x s [] (s.suspend id c)
  /-- A call issues a lease and suspends on it. -/
  | issue {s : Node Sizer} (id : ℕ) (key : String) (cost entered leaseNow : ℚ) (e : Entry Sizer)
      (he : s.entries.lookup key = some e) (horigin : Origin cfg x s id key cost entered e)
      (hshort : e.credits < cost) (hpending : e.pending = none)
      (hleaseWin : startOf win.windowMs leaseNow = startOf win.windowMs entered ∨
        x.straddles)
      (htick : tick s.clock s.leases s.calls leaseNow) :
      Move win cfg tick x s []
        ((((s.tick leaseNow).addLease ⟨key, max (leaseSizeFor cfg e) cost, leaseNow, false,
          .requested, false, id⟩).setEntry key { e with pending := some s.leases.length }).suspend
            id ⟨key, cost, entered, s.leases.length⟩)
  /-- A call returns a denial or throws: its lease failed, or it is short of credits. -/
  | refuse {s : Node Sizer} (id : ℕ) (ev : Event)
      (hcall : ∀ c, s.calls id = some c → ∃ lease, s.leases[c.lease]? = some lease ∧
        lease.stage.settled = true ∧ (lease.stage = .failed ∨
          ∃ e, s.entries.lookup c.key = some e ∧ e.credits < c.cost))
      (hev : (∃ err, ev = .rejected id err) ∨ ev = .failed id ∨
        ∃ key cost entered at' d, ev = .decided id key cost entered at' d ∧ d.allowed = false) :
      Move win cfg tick x s [ev] (s.finish id)
  /-- The store applies a lease. -/
  | serve {s : Node Sizer} (l : ℕ) (lease : Lease) (d : Decision)
      (hl : s.leases[l]? = some lease) (hstage : lease.stage = .requested)
      (hd : d.resetAt = ceilEnd win.windowMs lease.now) :
      Move win cfg tick x s (if d.allowed then [.charged lease.key lease.now lease.amount] else [])
        (s.setLease l { lease with stage := .replied d })
  /-- A lease is lost. -/
  | lose {s : Node Sizer} (l : ℕ) (lease : Lease) (hl : s.leases[l]? = some lease)
      (hflight : lease.stage.settled = false) :
      Move win cfg tick x s [] (s.setLease l { lease with stage := .failed })
  /-- A reply lands without crediting an entry. -/
  | land {s : Node Sizer} (l : ℕ) (lease : Lease) (d : Decision)
      (hl : s.leases[l]? = some lease) (hstage : lease.stage = .replied d) :
      Move win cfg tick x s [] (s.setLease l { lease with stage := .delivered d })
  /-- A reply lands in an entry. -/
  | credit {s : Node Sizer} (l : ℕ) (lease : Lease) (d : Decision) (e : Entry Sizer)
      (hl : s.leases[l]? = some lease) (hstage : lease.stage = .replied d)
      (he : s.entries.lookup lease.key = some e)
      (hrefill : lease.refill = true → cfg.windowCoupled = true → s.clock < d.resetAt)
      (hlate : lease.refill = false → d.allowed = true → s.clock < d.resetAt ∨ x.late)
      (hplain : d.allowed = true → Unrounded (e.credits + lease.amount) ∨ x.rounds) :
      Move win cfg tick x s []
        ((s.setLease l { lease with stage := .delivered d }).setEntry lease.key (e.land lease d))
  /-- A settled lease is marked as cleaned. -/
  | cleaned {s : Node Sizer} (l : ℕ) (lease : Lease) (hl : s.leases[l]? = some lease)
      (hsettled : lease.stage.settled = true) :
      Move win cfg tick x s [] (s.setLease l { lease with cleaned := true })
  /-- A settled lease frees its slot in the entry. -/
  | clean {s : Node Sizer} (l : ℕ) (lease : Lease) (e : Entry Sizer)
      (hl : s.leases[l]? = some lease) (hsettled : lease.stage.settled = true)
      (he : s.entries.lookup lease.key = some e) :
      Move win cfg tick x s [] (s.setEntry lease.key (e.clean l lease.refill))

/-- A sequence of moves. -/
abbrev Moves (win : FixedWindow.Config) (cfg : Config Sizer) (tick : Reading) (x : Lapses) :
    Node Sizer → List Event → Node Sizer → Prop :=
  Chain (Move win cfg tick x)

/-! ### The lapses of a step -/

/-- The check reads the clock in another window than that of its entry. -/
def straddles (win : FixedWindow.Config) (s : Node Sizer) : Act → Bool
  | .check _ _ _ now leaseNow =>
    startOf win.windowMs leaseNow ≠ startOf win.windowMs now
  | .resume id now leaseNow =>
    match s.calls id with
    | some c =>
      startOf win.windowMs now ≠ startOf win.windowMs c.now ||
        startOf win.windowMs leaseNow ≠ startOf win.windowMs c.now
    | none => false
  | _ => false

/-- The grant of an on-demand lease lands in its entry at or after the end of its window. -/
def landsLate (s : Node Sizer) : Act → Bool
  | .deliver l now =>
    match s.leases[l]? with
    | some ⟨key, _, _, refill, .replied d, _, _⟩ =>
      !refill && d.allowed && d.resetAt ≤ now && (s.entries.lookup key).isSome
    | _ => false
  | _ => false

/-- A lease of `key` is in flight. -/
def leased (s : Node Sizer) (key : String) : Bool :=
  s.leases.any fun lease => lease.key = key && !lease.stage.settled

/-- Creating an entry for `key` evicts a key with a lease in flight. -/
def evictsLeased (cfg : Config Sizer) (s : Node Sizer) (key : String) : Bool :=
  (s.entries.lookup key).isNone && cfg.full s.entries.size &&
    match s.entries.oldest? with
    | some oldest => leased s oldest
    | none => false

/-- The step drops an entry of a key with a lease in flight. -/
def dropsLeased (cfg : Config Sizer) (s : Node Sizer) : Act → Bool
  | .check _ rawKey _ _ _ => evictsLeased cfg s (prefixer cfg.keyPrefix rawKey)
  | .resume id _ _ =>
    match s.calls id with
    | some c => evictsLeased cfg s c.key
    | none => false
  | .reclaim now =>
    match cfg.returnIdleAfterMs with
    | some idle => s.entries.entries.any fun r => idle < fl (now - r.2.lastUse) && leased s r.1
    | none => false
  | .reset rawKey => leased s (prefixer cfg.keyPrefix rawKey)
  | _ => false

/-- The check asks for another cost than one. -/
def asksBulk : Act → Bool
  | .check _ _ cost _ _ => cost ≠ 1
  | _ => false

/-- The credits a map slot holds. -/
def creditsOf (slot : Option (Entry Sizer)) : ℚ :=
  match slot with
  | some e => e.credits
  | none => 0

/-- The reply on its way grants the lease. -/
def Lease.granted (lease : Lease) : Bool :=
  match lease.stage with
  | .replied d => d.allowed
  | _ => false

/-- What is left of the credits of `key` after an admission of `cost` is not rounded. -/
def SpendsPlainly (s : Node Sizer) (key : String) (cost : ℚ) : Prop :=
  cost ≤ creditsOf (s.entries.lookup key) → Unrounded (creditsOf (s.entries.lookup key) - cost)

instance (s : Node Sizer) (key : String) (cost : ℚ) : Decidable (SpendsPlainly s key cost) :=
  inferInstanceAs (Decidable (_ → _))

/-- No balance of credits that the step computes is rounded. -/
def PlainCredits (cfg : Config Sizer) (s : Node Sizer) : Act → Prop
  | .check _ rawKey cost _ _ => SpendsPlainly s (prefixer cfg.keyPrefix rawKey) cost
  | .resume id _ _ => ∀ c ∈ s.calls id, SpendsPlainly s c.key c.cost
  | .deliver l _ => ∀ lease ∈ s.leases[l]?, lease.granted = true →
      Unrounded (creditsOf (s.entries.lookup lease.key) + lease.amount)
  | _ => True

instance PlainCredits.decidable (cfg : Config Sizer) (s : Node Sizer) :
    ∀ a, Decidable (PlainCredits cfg s a)
  | .check _ _ _ _ _ => inferInstanceAs (Decidable (SpendsPlainly _ _ _))
  | .resume _ _ _ | .deliver _ _ => inferInstanceAs (Decidable (∀ _ ∈ _, _))
  | .serve _ | .lose _ | .clean _ | .reclaim _ | .reset _ | .serveReset _ | .expire _ =>
    isTrue trivial

/-- The lapses of a step. -/
def lapses (win : FixedWindow.Config) (cfg : Config Sizer) (s : Node Sizer) (a : Act) : Lapses where
  straddles := straddles win s a = true
  late := landsLate s a = true
  drops := dropsLeased cfg s a = true
  bulk := asksBulk a = true
  rounds := ¬ PlainCredits cfg s a

/-- The clock readings of a step satisfy `tick`. -/
def ReadingsOk (tick : Reading) (s : Node Sizer) : Act → Prop
  | .check _ _ _ now leaseNow | .resume _ now leaseNow =>
    tick s.clock s.leases s.calls now ∧ tick now s.leases s.calls leaseNow
  | .deliver _ now | .reclaim now => tick s.clock s.leases s.calls now
  | _ => True

instance (tick : Reading) [∀ c l cs n, Decidable (tick c l cs n)] (s : Node Sizer) :
    ∀ a, Decidable (ReadingsOk tick s a)
  | .check _ _ _ _ _ | .resume _ _ _ => inferInstanceAs (Decidable (_ ∧ _))
  | .deliver _ _ | .reclaim _ => inferInstanceAs (Decidable (tick _ _ _ _))
  | .serve _ | .lose _ | .clean _ | .reset _ | .serveReset _ | .expire _ => isTrue trivial

/-! ### Every step is a sequence of moves -/

section Steps

variable {win : FixedWindow.Config} {cfg : Config Sizer} {tick : Reading} {x : Lapses}

omit [Rounding] in
theorem unleased_of_leased {s : Node Sizer} {key : String} (h : leased s key = false) :
    Unleased s key := by
  intro lease hmem hkey
  have hall := List.any_eq_false.mp h lease hmem
  simpa [hkey] using hall

theorem evict_moves {s : Node Sizer} {key : String} (hnone : s.entries.lookup key = none)
    (hdrops : evictsLeased cfg s key = true → x.drops) :
    Moves win cfg tick x s [] (evict cfg s) ∧ (evict cfg s).entries.lookup key = none ∧
      (evict cfg s).leases = s.leases ∧ (evict cfg s).calls = s.calls ∧
      (evict cfg s).clock = s.clock := by
  unfold evict
  split
  · rename_i hfull
    cases hold : s.entries.oldest? with
    | none => exact ⟨.nil, hnone, rfl, rfl, rfl⟩
    | some oldest =>
      refine ⟨.single (.retain _ fun k e hk hdrop => ?_), ?_, rfl, rfl, rfl⟩
      · obtain rfl : k = oldest := by simpa using hdrop
        cases hleased : leased s k with
        | true => exact .inr (hdrops (by simp [evictsLeased, hnone, hfull, hold, hleased]))
        | false => exact .inl (unleased_of_leased hleased)
      · simp [OrderedMap.lookup_filter, hnone]
  · exact ⟨.nil, hnone, rfl, rfl, rfl⟩

/-- `entryFor` leaves the entry it returns in the map. -/
theorem entryFor_spec {s : Node Sizer} {key : String}
    (hdrops : evictsLeased cfg s key = true → x.drops) :
    Moves win cfg tick x s [] (entryFor cfg s key).1 ∧
      (entryFor cfg s key).1.entries.lookup key = some (entryFor cfg s key).2 ∧
      (entryFor cfg s key).1.leases = s.leases ∧ (entryFor cfg s key).1.calls = s.calls ∧
      (entryFor cfg s key).1.clock = s.clock := by
  unfold entryFor
  cases he : s.entries.lookup key with
  | some e => exact ⟨.nil, he, rfl, rfl, rfl⟩
  | none =>
    obtain ⟨hmoves, hnone, hleases, hcalls, hclock⟩ :=
      @evict_moves _ _ win cfg tick x s key he hdrops
    refine ⟨hmoves.append (.single (.create key hnone)), ?_, hleases, hcalls, hclock⟩
    simp

omit [Rounding] in
theorem credits_entryFor (cfg : Config Sizer) (s : Node Sizer) (key : String) :
    (entryFor cfg s key).2.credits = creditsOf (s.entries.lookup key) := by
  unfold entryFor creditsOf
  cases s.entries.lookup key <;> rfl

theorem turn_moves {s : Node Sizer} {id : ℕ} {key : String} {cost entered leaseNow : ℚ}
    {e : Entry Sizer} (he : s.entries.lookup key = some e)
    (horigin : Origin cfg x s id key cost entered e)
    (hwin : startOf win.windowMs s.clock = startOf win.windowMs entered ∨ x.straddles)
    (hleaseWin : startOf win.windowMs leaseNow = startOf win.windowMs entered ∨
      x.straddles)
    (hplain : cost ≤ e.credits → Unrounded (e.credits - cost) ∨ x.rounds)
    (htick : tick s.clock s.leases s.calls leaseNow) :
    Moves win cfg tick x s (turn win cfg s id key cost entered leaseNow e).2
      (turn win cfg s id key cost entered leaseNow e).1 := by
  unfold turn
  split
  · rename_i hcost
    unfold maybeRefill
    dsimp only
    split
    · exact .single (.spend id key cost entered e _ he horigin hcost hwin (hplain hcost) rfl)
    · rename_i hlow
      split
      · exact .single (.spend id key cost entered e _ he horigin hcost hwin (hplain hcost) rfl)
      · split
        · exact .single (.spend id key cost entered e _ he horigin hcost hwin (hplain hcost) rfl)
        · exact .single (.spendRefill id key cost entered leaseNow e _ he horigin hcost hwin
            hleaseWin (hplain hcost) rfl htick (not_le.mp hlow))
  · rename_i hcost
    have hshort : e.credits < cost := not_le.mp hcost
    cases hpending : e.pending with
    | some l => exact .single (.ride id _ e he horigin hshort hpending)
    | none =>
      exact .single (.issue id key cost entered leaseNow e he horigin hshort hpending hleaseWin
        htick)

omit [Rounding] in
/-- Before its loop, `check` keeps everything but the credits of a window that has ended. -/
theorem arrive_spec (e : Entry Sizer) (now : ℚ) :
    ((e.arrive cfg now).credits = e.credits ∨
      (cfg.windowCoupled = true ∧ (e.arrive cfg now).credits = 0)) ∧
    (e.arrive cfg now).lastDecision = e.lastDecision ∧
    (e.arrive cfg now).leasedAt = e.leasedAt ∧ (e.arrive cfg now).pending = e.pending ∧
    (e.sizer = none → (e.arrive cfg now).sizer = none) ∧
    (cfg.windowCoupled = true → ∀ d, (e.arrive cfg now).lastDecision = some d →
      0 < (e.arrive cfg now).credits → now < d.resetAt) := by
  have hobserve : ∀ e₀ : Entry Sizer, (e₀.observeWindow cfg now).credits = e₀.credits ∧
      (e₀.observeWindow cfg now).lastDecision = e₀.lastDecision ∧
      (e₀.observeWindow cfg now).leasedAt = e₀.leasedAt ∧
      (e₀.observeWindow cfg now).pending = e₀.pending ∧
      (e₀.sizer = none → (e₀.observeWindow cfg now).sizer = none) := by
    intro e₀
    unfold Entry.observeWindow
    split
    · rename_i hsizer _
      split
      · exact ⟨rfl, rfl, rfl, rfl, fun hnone => by simp [hnone] at hsizer⟩
      · exact ⟨rfl, rfl, rfl, rfl, fun hnone => hnone⟩
    · exact ⟨rfl, rfl, rfl, rfl, fun hnone => hnone⟩
  obtain ⟨hcredits, hdecision, hleasedAt, hpending, hsizer⟩ := hobserve { e with lastUse := now }
  unfold Entry.arrive Entry.discardRolled
  split
  · rename_i d hd
    split
    · rename_i h
      refine ⟨.inr ⟨h.1, rfl⟩, hdecision, hleasedAt, hpending, hsizer, fun _ _ _ hpos => ?_⟩
      exact absurd hpos (lt_irrefl 0)
    · rename_i h
      refine ⟨.inl hcredits, hdecision, hleasedAt, hpending, hsizer, fun hcoupled d' hd' hpos => ?_⟩
      obtain rfl : d = d' := Option.some.inj (hd.symm.trans hd')
      by_contra hle
      exact h ⟨hcoupled, not_lt.mp hle, hpos⟩
  · rename_i hd
    refine ⟨.inl hcredits, hdecision, hleasedAt, hpending, hsizer, fun _ d' hd' _ => ?_⟩
    simp [hd] at hd'

theorem checkKey_moves {s : Node Sizer} {id : ℕ} {key : String} {cost now leaseNow : ℚ}
    (hid : s.calls id = none) (hbulk : cost = 1 ∨ x.bulk)
    (hdrops : evictsLeased cfg s key = true → x.drops)
    (hleaseWin : startOf win.windowMs leaseNow = startOf win.windowMs now ∨ x.straddles)
    (hplain : SpendsPlainly s key cost ∨ x.rounds)
    (htick : tick s.clock s.leases s.calls now) (htick' : tick now s.leases s.calls leaseNow) :
    Moves win cfg tick x s (checkKey win cfg s id key cost now leaseNow).2
      (checkKey win cfg s id key cost now leaseNow).1 := by
  unfold checkKey
  split
  · refine .single (.refuse id _ (fun c hc => ?_) (.inl ⟨_, rfl⟩))
    rw [hid] at hc
    cases hc
  · rename_i hcost
    obtain ⟨hentry, he, hleases, hcalls, hclock⟩ :=
      @entryFor_spec _ _ win cfg tick x (s.tick now) key hdrops
    have hbalance : (entryFor cfg (s.tick now) key).2.credits = creditsOf (s.entries.lookup key) :=
      credits_entryFor cfg (s.tick now) key
    have hpos := pos_of_requireCost hcost
    dsimp only
    generalize entryFor cfg (s.tick now) key = r at *
    obtain ⟨s₁, e⟩ := r
    obtain ⟨hcredits, hdecision, hleasedAt, hpending, hsizer, hfresh⟩ :=
      @arrive_spec _ cfg e now
    have hclock : s₁.clock = now := hclock
    have hleases : s₁.leases = s.leases := hleases
    have hcalls : s₁.calls = s.calls := hcalls
    refine Chain.cons (.tick now htick) (hentry.append (Chain.cons
      (.touch key e (e.arrive cfg now) he hcredits hdecision hleasedAt hpending hsizer) ?_))
    refine turn_moves (by simp) (.inl ⟨?_, hclock, hpos, hbulk, hfresh⟩) (.inl ?_) hleaseWin
      (fun hfits => ?_) ?_
    · rw [Node.setEntry_calls, hcalls, hid]
    · rw [Node.setEntry_clock, hclock]
    · rcases hcredits with hsame | ⟨-, hzero⟩
      · rw [hsame, hbalance] at hfits ⊢
        exact hplain.imp_left fun h => h hfits
      · rw [hzero] at hfits
        exact absurd hfits (not_le.mpr hpos)
    · rw [Node.setEntry_clock, Node.setEntry_leases, Node.setEntry_calls, hclock, hleases, hcalls]
      exact htick'

theorem resume_moves {s s' : Node Sizer} {id : ℕ} {now leaseNow : ℚ} {evs : List Event}
    (h : resume win cfg s id now leaseNow = some (s', evs))
    (hstraddles : straddles win s (.resume id now leaseNow) = true → x.straddles)
    (hdrops : dropsLeased cfg s (.resume id now leaseNow) = true → x.drops)
    (hplain : PlainCredits cfg s (.resume id now leaseNow) ∨ x.rounds)
    (htick : tick s.clock s.leases s.calls now) (htick' : tick now s.leases s.calls leaseNow) :
    Moves win cfg tick x s evs s' := by
  obtain ⟨c, hc, h⟩ := Option.bind_eq_some_iff.mp h
  obtain ⟨lease, hl, h⟩ := Option.bind_eq_some_iff.mp h
  cases hstage : lease.stage with
  | requested => simp [hstage] at h
  | replied d => simp [hstage] at h
  | failed =>
    simp only [hstage, Option.some.injEq, Prod.mk.injEq] at h
    obtain ⟨rfl, rfl⟩ := h
    refine .single (.refuse id _ (fun c' hc' => ?_) (.inr (.inl rfl)))
    obtain rfl : c = c' := Option.some.inj (hc.symm.trans hc')
    exact ⟨lease, hl, by simp [hstage, Stage.settled], .inl hstage⟩
  | delivered d =>
    simp only [hstage] at h
    obtain ⟨hentry, he, hleases, hcalls, hclock⟩ := @entryFor_spec _ _ win cfg tick x
      (s.tick now) c.key fun hev => hdrops (by simpa [dropsLeased, hc])
    have hbalance : (entryFor cfg (s.tick now) c.key).2.credits
        = creditsOf (s.entries.lookup c.key) :=
      credits_entryFor cfg (s.tick now) c.key
    generalize entryFor cfg (s.tick now) c.key = r at *
    obtain ⟨s₁, e⟩ := r
    have hclock : s₁.clock = now := hclock
    have hleases : s₁.leases = s.leases := hleases
    have hcalls : s₁.calls = s.calls := hcalls
    have hid : s₁.calls id = some c := by rw [hcalls, hc]
    have hdone : ∃ lease, s₁.leases[c.lease]? = some lease ∧ lease.stage.settled = true :=
      ⟨lease, by rw [hleases, hl], by simp [hstage, Stage.settled]⟩
    have hhead : Moves win cfg tick x s [] s₁ := Chain.cons (.tick now htick) hentry
    split at h
    · rename_i hdenied
      simp only [Option.some.injEq, Prod.mk.injEq] at h
      obtain ⟨rfl, rfl⟩ := h
      refine hhead.append (.single (.refuse id _ (fun c' hc' => ?_)
        (.inr (.inr ⟨_, _, _, _, _, rfl, by simpa using hdenied.1⟩))))
      obtain rfl : c = c' := Option.some.inj (hid.symm.trans hc')
      obtain ⟨lease', hl', hsettled⟩ := hdone
      exact ⟨lease', hl', hsettled, .inr ⟨e, he, hdenied.2⟩⟩
    · obtain ⟨rfl, rfl⟩ := Prod.mk.inj (Option.some.inj h)
      have hwindows : (startOf win.windowMs now = startOf win.windowMs c.now ∧
          startOf win.windowMs leaseNow = startOf win.windowMs c.now) ∨ x.straddles := by
        by_contra hcon
        rw [not_or] at hcon
        refine hcon.2 (hstraddles ?_)
        simp only [straddles, hc, Bool.or_eq_true, decide_eq_true_eq, ne_eq]
        exact not_and_or.mp hcon.1
      refine hhead.append (turn_moves he (.inr ⟨c, hid, rfl, rfl, rfl, hdone⟩) ?_ ?_
        (fun hfits => ?_) ?_)
      · rw [hclock]
        exact hwindows.imp_left And.left
      · exact hwindows.imp_left And.right
      · rw [hbalance]
        exact hplain.imp_left fun h => h c hc (hbalance ▸ hfits)
      · rw [hclock, hleases, hcalls]
        exact htick'

theorem deliver_moves {s s' : Node Sizer} {l : ℕ} {now : ℚ}
    (h : deliver cfg s l now = some s')
    (hlate : landsLate s (.deliver l now) = true → x.late)
    (hplain : PlainCredits cfg s (.deliver l now) ∨ x.rounds)
    (htick : tick s.clock s.leases s.calls now) : Moves win cfg tick x s [] s' := by
  obtain ⟨lease, hl, h⟩ := Option.bind_eq_some_iff.mp h
  cases hstage : lease.stage with
  | requested => simp [hstage] at h
  | delivered d => simp [hstage] at h
  | failed => simp [hstage] at h
  | replied d =>
    simp only [hstage, Node.setLease_entries, Node.tick_entries] at h
    have hland : Move win cfg tick x (s.tick now) []
        ((s.tick now).setLease l { lease with stage := .delivered d }) := .land l lease d hl hstage
    cases he : s.entries.lookup lease.key with
    | none =>
      simp only [he, Option.some.injEq] at h
      subst h
      exact .cons (.tick now htick) (.single hland)
    | some e =>
      simp only [he] at h
      split at h
      · obtain rfl := Option.some.inj h
        exact .cons (.tick now htick) (.single hland)
      · rename_i hkept
        obtain rfl := Option.some.inj h
        refine Chain.cons (Move.tick now htick)
          (Chain.single (Move.credit l lease d e hl hstage he ?_ ?_ ?_))
        · intro hrefill hcoupled
          by_contra hle
          exact hkept ⟨hrefill, hcoupled, not_lt.mp hle⟩
        · intro hdemand hallowed
          by_cases hlt : now < d.resetAt
          · exact .inl hlt
          · refine .inr (hlate ?_)
            obtain ⟨key, amount, now', refill, stage, cleaned, issuer⟩ := lease
            dsimp only at hstage hdemand he
            subst hstage hdemand
            simp [landsLate, hl, hallowed, not_lt.mp hlt, he]
        · refine fun hallowed => hplain.imp_left fun h => ?_
          have hbalance := h lease hl (by simp [Lease.granted, hstage, hallowed])
          rwa [he] at hbalance

theorem clean_moves {s s' : Node Sizer} {l : ℕ} (h : clean s l = some s') :
    Moves win cfg tick x s [] s' := by
  obtain ⟨lease, hl, h⟩ := Option.bind_eq_some_iff.mp h
  split at h
  · rename_i hdone
    have hclean : Move win cfg tick x s [] (s.setLease l { lease with cleaned := true }) :=
      .cleaned l lease hl hdone.1
    have hl' : (s.setLease l { lease with cleaned := true }).leases[l]?
        = some { lease with cleaned := true } := by
      rw [Node.setLease_leases, List.getElem?_set_self (List.getElem?_eq_some_iff.mp hl).1]
    dsimp only at h
    split at h
    · rename_i e he
      obtain rfl := Option.some.inj h
      exact .cons hclean (.single (.clean l { lease with cleaned := true } e hl' hdone.1 he))
    · obtain rfl := Option.some.inj h
      exact .single hclean
  · cases h

theorem lose_moves {s s' : Node Sizer} {l : ℕ} (h : lose s l = some s') :
    Moves win cfg tick x s [] s' := by
  obtain ⟨lease, hl, h⟩ := Option.bind_eq_some_iff.mp h
  cases hstage : lease.stage with
  | requested =>
    simp only [hstage, Option.some.injEq] at h
    subst h
    exact .single (.lose l lease hl (by simp [hstage, Stage.settled]))
  | replied d =>
    simp only [hstage, Option.some.injEq] at h
    subst h
    exact .single (.lose l lease hl (by simp [hstage, Stage.settled]))
  | delivered d => simp [hstage] at h
  | failed => simp [hstage] at h

theorem serve_moves {l2 l2' : L2} {s s' : Node Sizer} {l : ℕ} {evs : List Event}
    (h : serve win l2 s l = some (l2', s', evs)) : Moves win cfg tick x s evs s' := by
  obtain ⟨lease, hl, h⟩ := Option.bind_eq_some_iff.mp h
  split at h
  · rename_i hstage
    simp only [Option.some.injEq, Prod.mk.injEq] at h
    obtain ⟨-, rfl, rfl⟩ := h
    exact .single (.serve l lease _ hl hstage (FixedWindow.applyCheck_resetAt rfl))
  · cases h

theorem reclaim_moves {s s' : Node Sizer} {now : ℚ} (h : reclaim cfg s now = some s')
    (hdrops : dropsLeased cfg s (.reclaim now) = true → x.drops)
    (htick : tick s.clock s.leases s.calls now) : Moves win cfg tick x s [] s' := by
  unfold reclaim at h
  split at h
  · rename_i idle hidle
    split at h
    · obtain rfl := Option.some.inj h
      refine Chain.cons (Move.tick now htick)
        (Chain.single (Move.retain _ fun key e he hdrop => ?_))
      have hexpired : idle < fl (now - e.lastUse) := by
        simp only [decide_eq_false_iff_not, not_not] at hdrop
        exact hdrop
      cases hleased : leased s key with
      | false => exact .inl (unleased_of_leased hleased)
      | true =>
        refine .inr (hdrops ?_)
        simp only [dropsLeased, hidle, List.any_eq_true, Bool.and_eq_true, decide_eq_true_eq]
        exact ⟨(key, e), OrderedMap.mem_entries_of_lookup he, hexpired, hleased⟩
    · cases h
  · cases h

end Steps

/-- **Every step is a sequence of moves**, with no other lapses than its own. -/
theorem step_moves {win : FixedWindow.Config} {cfg : Config Sizer} {tick : Reading} {l2 l2' : L2}
    {s s' : Node Sizer} {a : Act} {evs : List Event}
    (h : step win cfg l2 s a = some (l2', s', evs)) (htick : ReadingsOk tick s a) :
    Moves win cfg tick (lapses win cfg s a) s evs s' := by
  cases a with
  | check id rawKey cost now leaseNow =>
    simp only [step] at h
    split at h
    · cases h
    · rename_i hid
      obtain ⟨-, rfl, rfl⟩ : l2 = l2' ∧ _ = s' ∧ _ = evs := by simpa [Prod.ext_iff] using h
      refine checkKey_moves (by simpa using hid) ?_ (fun hev => hev) ?_ (em _) htick.1 htick.2
      · by_cases hcost : cost = 1
        · exact .inl hcost
        · exact .inr (by simpa [lapses, asksBulk] using hcost)
      · by_cases hwin : startOf win.windowMs leaseNow = startOf win.windowMs now
        · exact .inl hwin
        · exact .inr (by simpa [lapses, straddles] using hwin)
  | resume id now leaseNow =>
    obtain ⟨r, hr, heq⟩ := Option.map_eq_some_iff.mp h
    cases heq
    exact resume_moves hr (fun hs => hs) (fun hd => hd) (em _) htick.1 htick.2
  | serve l => exact serve_moves h
  | lose l =>
    obtain ⟨r, hr, heq⟩ := Option.map_eq_some_iff.mp h
    cases heq
    exact lose_moves hr
  | deliver l now =>
    obtain ⟨r, hr, heq⟩ := Option.map_eq_some_iff.mp h
    cases heq
    exact deliver_moves hr (fun hl => hl) (em _) htick
  | clean l =>
    obtain ⟨r, hr, heq⟩ := Option.map_eq_some_iff.mp h
    cases heq
    exact clean_moves hr
  | reclaim now =>
    obtain ⟨r, hr, heq⟩ := Option.map_eq_some_iff.mp h
    cases heq
    exact reclaim_moves hr (fun hd => hd) htick
  | reset rawKey =>
    simp only [step, Option.some.injEq, Prod.mk.injEq] at h
    obtain ⟨-, rfl, rfl⟩ := h
    refine Chain.cons (Move.retain (fun k _ => k ≠ prefixer cfg.keyPrefix rawKey)
      fun key e he hdrop => ?_) (Chain.single (Move.upkeep _))
    obtain rfl : key = prefixer cfg.keyPrefix rawKey := by simpa using hdrop
    cases hleased : leased s (prefixer cfg.keyPrefix rawKey) with
    | false => exact .inl (unleased_of_leased hleased)
    | true => exact .inr hleased
  | serveReset i =>
    obtain ⟨key, -, heq⟩ := Option.map_eq_some_iff.mp h
    cases heq
    exact .single (.upkeep _)
  | expire key =>
    cases h
    exact .nil

end ThrottleKit.Leased
