import ThrottleKit.Lib.Lockstep
import ThrottleKit.TwoTier.LeaseSpender
import ThrottleKit.TwoTier.LeasedMoves

/-!
# The lease spender against the leased mode

`LeaseSpender` is the leased mode of the two-tier limiter taken out of it: where the limiter leases
from its store, the spender calls `reserve`. Here the two answer the same checks of one key, one
check at a time, each over a fixed window of its own, with a `reserve` that leases what the limiter
would.

They differ in one place. The limiter remembers the last decision of the store, also when it was a
denial, and discards leftover credits at the end that decision names; the spender keeps the expiry
of the last grant. The two ends are the same unless the denial falls in another window than the
grant, before the rounded end of the grant's window.

## Main definitions

* `checkAlone` — the limiter's answer to a check that nothing interrupts
* `spendAlone` — the spender's answer, with `leaseFrom` as its `reserve`
* `SameEnd` — no denial falls in another window than the leftover credits

## Main results

* `checkAlone_eq_spendAlone` — the same answers, where no denial does
* `denied_lease_diverges` — different answers where one does
-/

namespace ThrottleKit.Leased

open AlignedWindow LeaseSpender Lockstep

variable {Sizer : Type} {win : FixedWindow.Config} {cfg : Config Sizer}

/-- The limiter's node and its store, as one machine. -/
def alone (win : FixedWindow.Config) (cfg : Config Sizer) : Machine (L2 × Node Sizer) Act Event :=
  fun s a => (step win cfg s.1 s.2 a).map fun r => ((r.1, r.2.1), r.2.2)

/-- What follows when a check at `now` waits for lease `l`: the store applies it, the reply lands,
the check goes on, and then the slot of the lease is freed. -/
def roundTrip (l : ℕ) (now : ℚ) : List Act :=
  [.serve l, .deliver l now, .resume 0 now now, .clean l]

/-- What a check said. -/
def outcomeOf (events : List Event) : Option (Except RefreshError Decision) :=
  events.findSome? fun
    | .decided _ _ _ _ _ d => some (.ok d)
    | .rejected _ err => some (.error (.invalidCost err))
    | _ => none

/-- A check at `now` with nothing else going on until it returns. -/
def runAlone (win : FixedWindow.Config) (cfg : Config Sizer) (rawKey : String) (s : L2 × Node Sizer)
    (now cost : ℚ) : Option ((L2 × Node Sizer) × List Event) :=
  (alone win cfg s (.check 0 rawKey cost now now)).bind fun r =>
    match r.1.2.calls 0 with
    | none => some r
    | some c =>
      ((alone win cfg).exec r.1 (roundTrip c.lease now)).map fun q => (q.1, r.2 ++ q.2)

/-- The limiter's answers to checks `(now, cost)` of one key, one at a time. -/
def checkAlone (win : FixedWindow.Config) (cfg : Config Sizer) (rawKey : String) :
    Service (L2 × Node Sizer) (ℚ × ℚ) (Option (Except RefreshError Decision)) := fun s a =>
  match runAlone win cfg rawKey s a.1 a.2 with
  | some r => (r.1, outcomeOf r.2)
  | none => (s, none)

/-- A `reserve` that leases `max(batch, wants)` from the store at `now`. -/
def leaseFrom (win : FixedWindow.Config) (batch : ℚ) (key : String) (now : ℚ) (l2 : L2)
    (wants : ℚ) : L2 × Option ReserveResult :=
  let r := FixedWindow.applyCheck win l2 key now (max batch wants)
  (r.1, some (if r.2.allowed then .grant ⟨max batch wants, r.2.resetAt⟩ else .denied r.2))

/-- The options of the spender of a fixed window. -/
def spenderOptions (win : FixedWindow.Config) : Options := ⟨win.limit, win.windowMs, true⟩

/-- What `spendOrRefresh` said. -/
def saidBy : Refreshed → Except RefreshError Decision
  | .served d | .denied d => .ok d
  | .threw err => .error err

/-- The spender's answers to the same checks. -/
def spendAlone (win : FixedWindow.Config) (batch : ℚ) (key : String) :
    Service (L2 × Spender) (ℚ × ℚ) (Except RefreshError Decision) := fun s a =>
  let r := spendOrRefresh (spenderOptions win) (leaseFrom win batch key a.1) 1024 a.1 a.2 s.1 s.2
  ((r.1, r.2.1), saidBy r.2.2)

/-- **The condition.** When a check that is short of the leftover credits is denied by the store,
the window it was made in ends where the credits expire. -/
def SameEnd (win : FixedWindow.Config) (batch : ℚ) (key : String) (s : L2 × Spender) (a : ℚ × ℚ) :
    Prop :=
  let left := s.2.expireIfRolled (spenderOptions win) a.1
  0 < left.credits → left.credits < a.2 →
    (FixedWindow.check win (s.1.read key) a.1 (max batch a.2)).result.allowed = false →
    left.expiresAt = some (roundedEnd win.windowMs a.1)

instance (win : FixedWindow.Config) (batch : ℚ) (key : String) (s : L2 × Spender) (a : ℚ × ℚ) :
    Decidable (SameEnd win batch key s a) :=
  inferInstanceAs (Decidable (_ → _ → _ → _))

/-- The limiter's record of `key`. -/
def entryOf (cfg : Config Sizer) (s : Node Sizer) (key : String) : Entry Sizer :=
  (s.entries.lookup key).getD (.fresh cfg)

/-- The limiter and the spender between two checks. -/
structure InStep (cfg : Config Sizer) (key : String) (s : L2 × Spender) (t : L2 × Node Sizer) :
    Prop where
  sameStore : t.1 = s.1
  idle : t.2.calls 0 = none
  nonneg : 0 ≤ s.2.credits
  credits : (entryOf cfg t.2 key).credits = s.2.credits
  pending : (entryOf cfg t.2 key).pending = none
  sizer : (entryOf cfg t.2 key).sizer = none
  /-- Credits are discarded at the same instant. -/
  expiry : 0 < s.2.credits →
    ∃ d, (entryOf cfg t.2 key).lastDecision = some d ∧ s.2.expiresAt = some d.resetAt

/-! ### The limiter's side -/

section Limiter

variable {l2 : L2} {s : Node Sizer} {e : Entry Sizer} {key rawKey : String} {now cost : ℚ} {l : ℕ}
  {lease : Lease}

theorem evict_frame (cfg : Config Sizer) (s : Node Sizer) :
    (evict cfg s).leases = s.leases ∧ (evict cfg s).calls = s.calls := by
  unfold evict
  split
  · split <;> exact ⟨rfl, rfl⟩
  · exact ⟨rfl, rfl⟩

/-- `entryFor` returns the record, and leaves leases and calls alone. -/
theorem entryFor_eq (cfg : Config Sizer) (s : Node Sizer) (key : String) :
    (entryFor cfg s key).2 = entryOf cfg s key ∧ (entryFor cfg s key).1.leases = s.leases ∧
      (entryFor cfg s key).1.calls = s.calls := by
  unfold entryFor entryOf
  cases s.entries.lookup key with
  | some e => exact ⟨rfl, rfl, rfl⟩
  | none => exact ⟨rfl, evict_frame cfg s⟩

theorem entryFor_of_lookup (h : s.entries.lookup key = some e) : entryFor cfg s key = (s, e) := by
  unfold entryFor
  rw [h]

theorem entryOf_of_lookup (cfg : Config Sizer) (h : s.entries.lookup key = some e) :
    entryOf cfg s key = e := by
  rw [entryOf, h, Option.getD_some]

theorem maybeRefill_of_le (hlow : cfg.lowWater ≤ 0) (id : ℕ) :
    maybeRefill cfg s id key e now = s := by
  rw [maybeRefill, if_pos hlow]

/-- A check that its entry covers is admitted on the spot. -/
theorem turn_of_le (win : FixedWindow.Config) (s : Node Sizer) (key : String)
    (hlow : cfg.lowWater ≤ 0) (hle : cost ≤ e.credits) (now leaseNow : ℚ) :
    turn win cfg s 0 key cost now leaseNow e = ((s.setEntry key (e.spend cost)).finish 0,
      [.decided 0 key cost now s.clock (synthAllow win (e.spend cost) now)]) := by
  rw [turn, if_pos hle]
  exact congrArg (fun x => (x, _)) (maybeRefill_of_le hlow 0)

/-- The reply to a lease of `amount` lands, and the check that waits for it goes on: with what was
leased, or with the denial. -/
def Entry.settle (e : Entry Sizer) (lease : Lease) (d : Decision) (cost : ℚ) : Entry Sizer :=
  { (if d.allowed then (e.land lease d).spend cost else e.land lease d) with pending := none }

/-- What the check then says. -/
def settled (win : FixedWindow.Config) (e : Entry Sizer) (lease : Lease) (d : Decision)
    (cost now : ℚ) : Decision :=
  if d.allowed then synthAllow win ((e.land lease d).spend cost) now else d

theorem land_credits_of_denied {d : Decision} (h : d.allowed = false) :
    (e.land lease d).credits = e.credits := by
  simp [Entry.land, h]

theorem land_credits_of_allowed {d : Decision} (h : d.allowed = true) :
    (e.land lease d).credits = e.credits + lease.amount := by
  simp [Entry.land, h]

theorem land_pending (e : Entry Sizer) (lease : Lease) (d : Decision) :
    (e.land lease d).pending = e.pending := by
  unfold Entry.land
  split <;> rfl

/-- The code of the waiting check after its lease has landed. -/
theorem resume_landed (win : FixedWindow.Config) (hlow : cfg.lowWater ≤ 0) {d : Decision}
    (he : s.entries.lookup key = some (e.land lease d))
    (hcall : s.calls 0 = some ⟨key, cost, now, l⟩)
    (hlease : s.leases[l]? = some { lease with stage := .delivered d })
    (hshort : e.credits < cost) (hle : cost ≤ e.credits + lease.amount) :
    ∃ s', resume win cfg s 0 now now
        = some (s', [.decided 0 key cost now now (settled win e lease d cost now)]) ∧
      s'.leases = s.leases ∧ s'.calls 0 = none ∧
      s'.entries.lookup key = some (if d.allowed then (e.land lease d).spend cost
        else e.land lease d) := by
  have hentry : entryFor cfg (s.tick now) key = (s.tick now, e.land lease d) :=
    entryFor_of_lookup he
  simp only [resume, hcall, hlease, Option.bind_some, hentry]
  cases hd : d.allowed with
  | false =>
    have hcredits : (e.land lease d).credits = e.credits := land_credits_of_denied hd
    rw [if_pos ⟨rfl, hcredits ▸ hshort⟩, settled, if_neg (by simp [hd])]
    exact ⟨_, rfl, rfl, by simp, he⟩
  | true =>
    have hcredits : (e.land lease d).credits = e.credits + lease.amount :=
      land_credits_of_allowed hd
    rw [if_neg (by simp), turn_of_le win _ key hlow (hcredits ▸ hle), settled, if_pos hd]
    exact ⟨_, rfl, rfl, by simp, by simp⟩

theorem serve_requested (cfg : Config Sizer) (hstage : lease.stage = .requested)
    (hlease : s.leases[l]? = some lease) {r : L2 × Decision}
    (hr : FixedWindow.applyCheck win l2 lease.key lease.now lease.amount = r) :
    alone win cfg (l2, s) (.serve l)
      = some ((r.1, s.setLease l { lease with stage := .replied r.2 }),
        if r.2.allowed then [.charged lease.key lease.now lease.amount] else []) := by
  simp only [alone, step, serve, hlease, Option.bind_some, hstage, if_true, hr, Option.map_some]

theorem deliver_replied (win : FixedWindow.Config) (cfg : Config Sizer) (l2 : L2) (now : ℚ)
    {d : Decision} (he : s.entries.lookup lease.key = some e)
    (hrefill : lease.refill = false)
    (hlease : s.leases[l]? = some { lease with stage := .replied d }) :
    alone win cfg (l2, s) (.deliver l now)
      = some ((l2, ((s.tick now).setLease l { lease with stage := .delivered d }).setEntry lease.key
        (e.land lease d)), []) := by
  have he' : ((s.tick now).setLease l { lease with stage := .delivered d }).entries.lookup lease.key
      = some e := he
  simp only [alone, step, deliver, hlease, Option.bind_some, he']
  rw [if_neg (by simp [hrefill])]
  rfl

/-- The slot of a landed lease is freed. -/
theorem clean_landed (win : FixedWindow.Config) (cfg : Config Sizer) (l2 : L2)
    {d : Decision} (he : s.entries.lookup lease.key = some e)
    (hpending : e.pending = some l) (hrefill : lease.refill = false)
    (hcleaned : lease.cleaned = false)
    (hlease : s.leases[l]? = some { lease with stage := .delivered d }) :
    alone win cfg (l2, s) (.clean l)
      = some ((l2, (s.setLease l { lease with stage := .delivered d, cleaned := true }).setEntry
        lease.key { e with pending := none }), []) := by
  have he' : (s.setLease l { lease with stage := .delivered d, cleaned := true }).entries.lookup
      lease.key = some e := he
  simp only [alone, step, clean, hlease, Option.bind_some, Stage.settled, hcleaned, he']
  simp [Entry.clean, hrefill, hpending]

/-- **A round trip** charges the store, lands what it says, and ends the check. -/
theorem exec_roundTrip (win : FixedWindow.Config) (l2 : L2) (lease : Lease) (now cost : ℚ)
    (hlow : cfg.lowWater ≤ 0) (hlookup : s.entries.lookup lease.key = some e)
    (hpending : e.pending = some l) (hcall : s.calls 0 = some ⟨lease.key, cost, now, l⟩)
    (hlease : s.leases[l]? = some lease) (hstage : lease.stage = .requested)
    (hrefill : lease.refill = false) (hcleaned : lease.cleaned = false)
    (hshort : e.credits < cost) (hle : cost ≤ e.credits + lease.amount) {r : L2 × Decision}
    (hr : FixedWindow.applyCheck win l2 lease.key lease.now lease.amount = r) :
    ∃ s' charges, (alone win cfg).exec (l2, s) (roundTrip l now)
        = some ((r.1, s'),
          charges ++ [.decided 0 lease.key cost now now (settled win e lease r.2 cost now)]) ∧
      outcomeOf charges = none ∧ s'.calls 0 = none ∧
      s'.entries.lookup lease.key = some (e.settle lease r.2 cost) := by
  obtain ⟨hl, -⟩ := List.getElem?_eq_some_iff.mp hlease
  have hserve := serve_requested cfg hstage hlease hr
  have hdeliver := deliver_replied win cfg r.1 now
    (s := s.setLease l { lease with stage := .replied r.2 }) hlookup hrefill
    (List.getElem?_set_self hl)
  generalize hs₂ : ((s.setLease l { lease with stage := .replied r.2 }).tick now).setLease l
    { lease with stage := .delivered r.2 } = s₂ at hdeliver
  have hcall₂ : s₂.calls 0 = some ⟨lease.key, cost, now, l⟩ := by rw [← hs₂]; exact hcall
  have hlease₂ : s₂.leases[l]? = some { lease with stage := .delivered r.2 } := by
    rw [← hs₂]
    simp [hl]
  obtain ⟨s₃, hresume, hleases₃, hcalls₃, hlookup₃⟩ :=
    resume_landed win (s := s₂.setEntry lease.key (e.land lease r.2)) hlow
      (OrderedMap.lookup_set_self ..) hcall₂ hlease₂ hshort hle
  have hpending₃ : (if r.2.allowed then (e.land lease r.2).spend cost
      else e.land lease r.2).pending = some l := by
    split
    · exact (land_pending e lease r.2).trans hpending
    · exact (land_pending e lease r.2).trans hpending
  have hclean := clean_landed win cfg r.1 hlookup₃ hpending₃ hrefill
    hcleaned (hleases₃ ▸ hlease₂)
  have hresume' : alone win cfg (r.1, s₂.setEntry lease.key (e.land lease r.2)) (.resume 0 now now)
      = some ((r.1, s₃),
        [.decided 0 lease.key cost now now (settled win e lease r.2 cost now)]) := by
    simp only [alone, step, hresume, Option.map_some]
  refine ⟨(s₃.setLease l { lease with stage := .delivered r.2, cleaned := true }).setEntry lease.key
      (e.settle lease r.2 cost),
    if r.2.allowed then [.charged lease.key lease.now lease.amount] else [], ?_, ?_, hcalls₃,
    OrderedMap.lookup_set_self ..⟩
  · simp only [roundTrip, Machine.exec, hserve, hdeliver, hresume', hclean, Option.bind_some,
      Option.map_some, List.nil_append, List.append_nil]
    rfl
  · split <;> rfl

/-- What a check does to the credits of its record, and what it leaves of the rest. -/
theorem arrive_frame (hcoupled : cfg.windowCoupled = true) (e : Entry Sizer) (now : ℚ)
    (hsizer : e.sizer = none) :
    (e.arrive cfg now).pending = e.pending ∧ (e.arrive cfg now).sizer = none ∧
      (e.arrive cfg now).lastDecision = e.lastDecision ∧
      (e.arrive cfg now).credits = (match e.lastDecision with
        | some d => if d.resetAt ≤ now ∧ 0 < e.credits then 0 else e.credits
        | none => e.credits) := by
  have hobserve : ({ e with lastUse := now } : Entry Sizer).observeWindow cfg now
      = { e with lastUse := now } := by simp [Entry.observeWindow, hsizer]
  rw [Entry.arrive, hobserve, Entry.discardRolled]
  cases e.lastDecision with
  | none => exact ⟨rfl, hsizer, rfl, rfl⟩
  | some d =>
    dsimp only
    by_cases hroll : d.resetAt ≤ now ∧ 0 < e.credits
    · rw [if_pos ⟨hcoupled, hroll⟩, if_pos hroll]
      exact ⟨rfl, hsizer, rfl, rfl⟩
    · rw [if_neg fun h => hroll h.2, if_neg hroll]
      exact ⟨rfl, hsizer, rfl, rfl⟩

/-- A check that its record does not cover leases, waits, and ends with what the store said. -/
theorem runAlone_of_lt (win : FixedWindow.Config) (hlow : cfg.lowWater ≤ 0)
    (hsizer : e.sizer = none)
    (hpending : e.pending = none)
    (hnonneg : 0 ≤ e.credits) (hshort : e.credits < cost) (now : ℚ)
    {r : L2 × Decision} (hr : FixedWindow.applyCheck win l2 key now (max cfg.batch cost) = r)
    {lease : Lease} (hlease : lease = ⟨key, max cfg.batch cost, now, false, .requested, false, 0⟩)
    {q : Node Sizer × List Event} (hq : turn win cfg s 0 key cost now now e = q) :
    ∃ s' charges, q.2 = [] ∧ q.1.calls 0 = some ⟨key, cost, now, s.leases.length⟩ ∧
      (alone win cfg).exec (l2, q.1) (roundTrip s.leases.length now)
        = some ((r.1, s'), charges ++ [.decided 0 key cost now now
            (settled win { e with pending := some s.leases.length } lease r.2 cost now)]) ∧
      outcomeOf charges = none ∧ s'.calls 0 = none ∧
      s'.entries.lookup key
        = some ({ e with pending := some s.leases.length }.settle lease r.2 cost) := by
  have hsize : leaseSizeFor cfg e = cfg.batch := by rw [leaseSizeFor, hsizer]
  rw [turn, if_neg (not_le.mpr hshort), hpending] at hq
  dsimp only at hq
  rw [hsize, ← hlease] at hq
  have hkey : lease.key = key := by rw [hlease]
  have hamount : lease.amount = max cfg.batch cost := by rw [hlease]
  have hlnow : lease.now = now := by rw [hlease]
  obtain ⟨s', charges, hexec, hcharges, hcalls, hlookup⟩ :=
    exec_roundTrip win l2 lease now cost (s := q.1) (r := r)
      (e := { e with pending := some s.leases.length }) (l := s.leases.length) hlow
      (by rw [← hq]; simp [hkey]) rfl (by rw [← hq]; simp [hkey])
      (by rw [← hq]; simp) (by rw [hlease]) (by rw [hlease]) (by rw [hlease]) hshort
      (by rw [hamount]; exact le_add_of_nonneg_of_le hnonneg (le_max_right _ _))
      (by rw [hkey, hamount, hlnow]; exact hr)
  rw [hkey] at hexec hlookup
  exact ⟨s', charges, by rw [← hq], by rw [← hq]; simp, hexec, hcharges, hcalls, hlookup⟩

end Limiter

/-! ### The spender's side -/

/-- The allow the spender synthesizes, having spent down to `s`. -/
def spenderAllow (win : FixedWindow.Config) (s : Spender) (now : ℚ) : Decision :=
  ⟨true, win.limit, max 0 ⌊s.credits⌋, s.expiresAt.getD (now + win.windowMs), 0⟩

section Spender

variable {W : Type} {reserve : W → ℚ → W × Option ReserveResult} {w : W} {s : Spender}
  {l2 : L2} {key : String} {now cost batch : ℚ} {maxRounds : ℕ}

theorem refresh_of_le (rounds : ℕ) (hle : cost ≤ s.credits) :
    refresh (spenderOptions win) reserve maxRounds now cost (rounds + 1) w s
      = (w, s.charge cost, .served (spenderAllow win (s.charge cost) now)) := by
  simp only [refresh, spendLocal, if_pos hle]
  rfl

/-- A spender that is short leases once, and is done. -/
theorem refresh_leaseFrom (rounds : ℕ) (hnonneg : 0 ≤ s.credits) (hpos : 0 < cost)
    (hshort : s.credits < cost) {r : L2 × Decision}
    (hr : FixedWindow.applyCheck win l2 key now (max batch cost) = r) :
    refresh (spenderOptions win) (leaseFrom win batch key now) maxRounds now cost (rounds + 2) l2 s
      = if r.2.allowed then
          (r.1, (s.applyLease ⟨max batch cost, r.2.resetAt⟩).charge cost, .served (spenderAllow win
            ((s.applyLease ⟨max batch cost, r.2.resetAt⟩).charge cost) now))
        else (r.1, s, .denied r.2) := by
  have hcapacity : ¬ max batch cost ≤ 0 := not_le.mpr (hpos.trans_le (le_max_right _ _))
  have hle : cost ≤ (s.applyLease ⟨max batch cost, r.2.resetAt⟩).credits :=
    le_add_of_nonneg_of_le hnonneg (le_max_right _ _)
  rw [refresh]
  simp only [spendLocal, if_neg (not_le.mpr hshort), leaseFrom, hr]
  cases r.2.allowed with
  | false => rfl
  | true =>
    simp only [if_true, if_neg hcapacity]
    exact refresh_of_le rounds hle

end Spender

/-! ### In step -/

section InStep

variable {s : L2 × Spender} {t : L2 × Node Sizer} {key rawKey : String} {a : ℚ × ℚ}

/-- The two discard alike. -/
theorem InStep.arrive (win : FixedWindow.Config) (h : InStep cfg key s t)
    (hcoupled : cfg.windowCoupled = true) (now : ℚ) :
    ((entryOf cfg t.2 key).arrive cfg now).pending = none ∧
      ((entryOf cfg t.2 key).arrive cfg now).sizer = none ∧
      0 ≤ (s.2.expireIfRolled (spenderOptions win) now).credits ∧
      ((entryOf cfg t.2 key).arrive cfg now).credits
        = (s.2.expireIfRolled (spenderOptions win) now).credits ∧
      (0 < (s.2.expireIfRolled (spenderOptions win) now).credits →
        ∃ d, ((entryOf cfg t.2 key).arrive cfg now).lastDecision = some d ∧
          (s.2.expireIfRolled (spenderOptions win) now).expiresAt = some d.resetAt) := by
  obtain ⟨hpending, hsizer, hdecision, hcredits⟩ := arrive_frame hcoupled (entryOf cfg t.2 key) now
    h.sizer
  refine ⟨hpending.trans h.pending, hsizer, ?_⟩
  rw [hdecision, hcredits, h.credits, expiresAt_expireIfRolled]
  rcases h.nonneg.lt_or_eq with hpos | hzero
  · obtain ⟨d, hd, hexpires⟩ := h.expiry hpos
    simp only [hd, Spender.expireIfRolled, hexpires, spenderOptions, hpos, and_true, true_and]
    by_cases hroll : d.resetAt ≤ now
    · simp [hroll]
    · simp [hroll, hpos.le]
  · have hexpired : (s.2.expireIfRolled (spenderOptions win) now).credits = 0 := by
      unfold Spender.expireIfRolled
      split
      · split
        · rfl
        · exact hzero.symm
      · exact hzero.symm
    rw [hexpired, ← hzero]
    refine ⟨le_rfl, ?_, fun hlt => absurd hlt (lt_irrefl _)⟩
    split
    · simp
    · rfl

/-- A check with an admissible cost is a turn of the loop on its record. -/
theorem alone_check (win : FixedWindow.Config) (now : ℚ) (hidle : t.2.calls 0 = none) {cost : ℚ}
    (hcost : requireCost cost = .ok ())
    (hkey : prefixer cfg.keyPrefix rawKey = key) :
    ∃ n : Node Sizer, n.calls = t.2.calls ∧ n.entries.lookup key
        = some ((entryOf cfg t.2 key).arrive cfg now) ∧
      alone win cfg t (.check 0 rawKey cost now now)
        = some ((t.1, (turn win cfg n 0 key cost now now ((entryOf cfg t.2 key).arrive cfg now)).1),
          (turn win cfg n 0 key cost now now ((entryOf cfg t.2 key).arrive cfg now)).2) := by
  obtain ⟨hentry, -, hcalls⟩ := entryFor_eq cfg (t.2.tick now) key
  have hentry' : (entryFor cfg (t.2.tick now) key).2 = entryOf cfg t.2 key := hentry
  refine ⟨(entryFor cfg (t.2.tick now) key).1.setEntry key ((entryOf cfg t.2 key).arrive cfg now),
    hcalls, OrderedMap.lookup_set_self .., ?_⟩
  simp only [alone, step, hidle, Option.isSome_none, Bool.false_eq_true, if_false, check, checkKey,
    hcost, hkey, hentry', Option.map_some]

theorem outcomeOf_append {charges : List Event} (h : outcomeOf charges = none) (id : ℕ)
    (k : String) (cost entered now : ℚ) (d : Decision) :
    outcomeOf (charges ++ [.decided id k cost entered now d]) = some (.ok d) := by
  unfold outcomeOf at h ⊢
  rw [List.findSome?_append, h]
  rfl

/-- **One check**: the two say the same, and stay in step. -/
theorem InStep.step (h : InStep cfg key s t) (hcoupled : cfg.windowCoupled = true)
    (hlow : cfg.lowWater ≤ 0) (hkey : prefixer cfg.keyPrefix rawKey = key)
    (hok : SameEnd win cfg.batch key s a) :
    some (spendAlone win cfg.batch key s a).2 = (checkAlone win cfg rawKey t a).2 ∧
      InStep cfg key (spendAlone win cfg.batch key s a).1 (checkAlone win cfg rawKey t a).1 := by
  obtain ⟨now, cost⟩ := a
  cases hcost : requireCost cost with
  | error err =>
    have hrun : runAlone win cfg rawKey t now cost
        = some ((t.1, t.2.finish 0), [.rejected 0 err]) := by
      simp [runAlone, alone, Leased.step, h.idle, check, checkKey, hcost]
    simp only [spendAlone, spendOrRefresh, checkAlone, hcost, hrun]
    exact ⟨rfl, h.sameStore, by simp, h.nonneg, h.credits, h.pending, h.sizer, h.expiry⟩
  | ok u =>
    obtain ⟨n, hcalls, hlookup, hcheck⟩ := alone_check win now h.idle hcost hkey
    obtain ⟨hpending, hsizer, hnonneg, hcredits, hexpiry⟩ := h.arrive win hcoupled now
    have hpos := pos_of_requireCost hcost
    generalize he : (entryOf cfg t.2 key).arrive cfg now = e at *
    simp only [spendAlone, spendOrRefresh, checkAlone, hcost]
    dsimp only [SameEnd] at hok
    generalize hs : s.2.expireIfRolled (spenderOptions win) now = s₀ at *
    rcases le_or_gt cost s₀.credits with hle | hshort
    · have hturn := turn_of_le win n key hlow (hcredits ▸ hle) now now
      rw [hturn] at hcheck
      have hrun : runAlone win cfg rawKey t now cost
          = some ((t.1, (n.setEntry key (e.spend cost)).finish 0),
            [.decided 0 key cost now n.clock (synthAllow win (e.spend cost) now)]) := by
        simp [runAlone, hcheck]
      obtain ⟨d, hd, hexpires⟩ := hexpiry (hpos.trans_le hle)
      have hsaid : synthAllow win (e.spend cost) now = spenderAllow win (s₀.charge cost) now := by
        simp only [synthAllow, Entry.spend, spenderAllow, Spender.charge, hd, hexpires, hcredits,
          Option.getD_some, Rounding.fl_exact]
      simp only [hrun, refresh_of_le 1023 hle]
      refine ⟨congrArg (fun d => some (Except.ok d)) hsaid.symm, ?_⟩
      have hentry : entryOf cfg ((n.setEntry key (e.spend cost)).finish 0) key = e.spend cost :=
        entryOf_of_lookup cfg (by simp)
      exact ⟨h.sameStore, by simp, sub_nonneg.mpr hle, by rw [hentry]; simp [Entry.spend,
        Spender.charge, hcredits], by rw [hentry]; exact hpending, by rw [hentry]; exact hsizer,
        fun _ => ⟨d, by rw [hentry]; exact hd, hexpires⟩⟩
    · generalize hr : FixedWindow.applyCheck win s.1 key now (max cfg.batch cost) = r
      obtain ⟨n', charges, hquiet, hwaits, hexec, hcharges, hidle, hrecord⟩ :=
        runAlone_of_lt win (s := n) (r := r) hlow hsizer hpending
          (hcredits ▸ hnonneg) (hcredits ▸ hshort) now (h.sameStore ▸ hr) rfl rfl
      have hrun : runAlone win cfg rawKey t now cost = some ((r.1, n'), charges ++
          [.decided 0 key cost now now (settled win { e with pending := some n.leases.length }
            ⟨key, max cfg.batch cost, now, false, .requested, false, 0⟩ r.2 cost now)]) := by
        simp only [runAlone, hcheck, Option.bind_some, hwaits, hexec, Option.map_some, hquiet,
          List.nil_append]
      simp only [hrun, refresh_leaseFrom 1022 hnonneg hpos hshort hr, outcomeOf_append hcharges]
      have hentry := entryOf_of_lookup cfg hrecord
      cases hallowed : r.2.allowed with
      | false =>
        refine ⟨by simp [settled, hallowed, saidBy], rfl, hidle, hnonneg, ?_, ?_, ?_, ?_⟩
        · rw [hentry]
          simp [Entry.settle, Entry.land, hallowed, hcredits]
        · rw [hentry]
          rfl
        · rw [hentry]
          simp [Entry.settle, Entry.land, hallowed, hsizer]
        · intro hleft
          have hresult : r.2 = (FixedWindow.check win (s.1.read key) now
              (max cfg.batch cost)).result := by rw [← hr, FixedWindow.applyCheck_snd]
          refine ⟨r.2, ?_, ?_⟩
          · rw [hentry]
            simp [Entry.settle, Entry.land, hallowed]
          · rw [hresult, FixedWindow.check_resetAt]
            exact hok hleft hshort (hresult ▸ hallowed)
      | true =>
        refine ⟨?_, rfl, hidle, ?_, ?_, ?_, ?_, ?_⟩
        · simp [settled, hallowed, saidBy, synthAllow, spenderAllow, Entry.land, Entry.spend,
            Spender.applyLease, Spender.charge, hcredits]
        · exact sub_nonneg.mpr (le_add_of_nonneg_of_le hnonneg (le_max_right _ _))
        · rw [hentry]
          simp [Entry.settle, Entry.land, Entry.spend, hallowed, hcredits, Spender.applyLease,
            Spender.charge]
        · rw [hentry]
          rfl
        · rw [hentry]
          simp [Entry.settle, Entry.land, Entry.spend, hallowed, hsizer]
        · intro _
          refine ⟨r.2, ?_, rfl⟩
          rw [hentry]
          simp [Entry.settle, Entry.land, Entry.spend, hallowed]

end InStep

/-! ### Every trace -/

/-- A limiter and a spender as constructed are in step, over any store. -/
theorem inStep_new (hsizer : cfg.makeSizer = none) (key : String) (l2 : L2) :
    InStep cfg key (l2, .new) (l2, .new) where
  sameStore := rfl
  idle := rfl
  nonneg := le_rfl
  credits := rfl
  pending := rfl
  sizer := hsizer
  expiry h := absurd h (lt_irrefl _)

theorem answers_of_inStep (hcoupled : cfg.windowCoupled = true) (hlow : cfg.lowWater ≤ 0)
    {rawKey : String} {trace : List (ℚ × ℚ)} {s : L2 × Spender} {t : L2 × Node Sizer}
    (h : InStep cfg (prefixer cfg.keyPrefix rawKey) s t)
    (hok : AllMet (spendAlone win cfg.batch (prefixer cfg.keyPrefix rawKey))
      (SameEnd win cfg.batch (prefixer cfg.keyPrefix rawKey)) s trace) :
    (answers (spendAlone win cfg.batch (prefixer cfg.keyPrefix rawKey)) s trace).map some
      = answers (checkAlone win cfg rawKey) t trace := by
  refine Eq.trans ?_ (List.map_id _)
  exact map_answers_eq (fun s t a hR hok => hR.step hcoupled hlow rfl hok) h hok

/-- The credits were granted for the window of an instant up to `now`. -/
def GrantedBy (win : FixedWindow.Config) (now : ℚ) (s : L2 × Spender) : Prop :=
  0 < s.2.credits → ∃ t ≤ now, s.2.expiresAt = some (roundedEnd win.windowMs t)

/-- Where readings are clear of the rounding, leftover credits are of the window of the check. -/
theorem sameEnd_of_grantedBy {batch : ℚ} {key : String} {s : L2 × Spender} {a : ℚ × ℚ}
    (h : GrantedBy win a.1 s) (hclear : ClearOfRounding win.windowMs a.1) :
    SameEnd win batch key s a := by
  intro hleft _ _
  obtain ⟨heq, hfresh⟩ := credits_expireIfRolled hleft
  obtain ⟨t, ht, hexpires⟩ := h (heq ▸ hleft)
  have hlt : a.1 < roundedEnd win.windowMs t := hfresh rfl _ hexpires
  have hsame : alignedStart win.windowMs a.1 = alignedStart win.windowMs t :=
    le_antisymm (alignedStart_le_of_lt_roundedEnd win.windowMs_pos hclear hlt)
      (alignedStart_mono win.windowMs_pos ht)
  rw [expiresAt_expireIfRolled, hexpires, roundedEnd, roundedEnd, hsame]

theorem GrantedBy.spendAlone {batch : ℚ} {key : String} {s : L2 × Spender} {a : ℚ × ℚ}
    (h : GrantedBy win a.1 s) (hnonneg : 0 ≤ s.2.credits) :
    GrantedBy win a.1 (spendAlone win batch key s a).1 ∧
      0 ≤ (Leased.spendAlone win batch key s a).1.2.credits := by
  obtain ⟨now, cost⟩ := a
  cases hcost : requireCost cost with
  | error err =>
    simp only [Leased.spendAlone, spendOrRefresh, hcost]
    exact ⟨h, hnonneg⟩
  | ok u =>
    have hleft : GrantedBy win now (s.1, s.2.expireIfRolled (spenderOptions win) now) := by
      intro hpos
      obtain ⟨t, ht, hexpires⟩ := h ((credits_expireIfRolled hpos).1 ▸ hpos)
      exact ⟨t, ht, (expiresAt_expireIfRolled _ _ _).trans hexpires⟩
    have hnonneg' : 0 ≤ (s.2.expireIfRolled (spenderOptions win) now).credits := by
      unfold Spender.expireIfRolled
      split
      · split
        · exact le_rfl
        · exact hnonneg
      · exact hnonneg
    simp only [Leased.spendAlone, spendOrRefresh, hcost]
    generalize s.2.expireIfRolled (spenderOptions win) now = left at *
    rcases le_or_gt cost left.credits with hle | hshort
    · simp only [refresh_of_le 1023 hle]
      exact ⟨fun _ => hleft ((pos_of_requireCost hcost).trans_le hle), sub_nonneg.mpr hle⟩
    · generalize hr : FixedWindow.applyCheck win s.1 key now (max batch cost) = r
      simp only [refresh_leaseFrom 1022 hnonneg' (pos_of_requireCost hcost) hshort hr]
      cases r.2.allowed with
      | false => exact ⟨hleft, hnonneg'⟩
      | true =>
        refine ⟨fun _ => ⟨now, le_rfl, congrArg some ?_⟩, ?_⟩
        · exact FixedWindow.applyCheck_resetAt hr
        · exact sub_nonneg.mpr (le_add_of_nonneg_of_le hnonneg' (le_max_right _ _))

/-- **On a clock that does not go back, and whose readings are clear of the rounding, the two answer
alike throughout.** In whole windows, all readings are clear. -/
theorem answers_eq_of_clear (hcoupled : cfg.windowCoupled = true) (hsizer : cfg.makeSizer = none)
    (hlow : cfg.lowWater ≤ 0) (rawKey : String) (l2 : L2) {trace : List (ℚ × ℚ)}
    (hsorted : trace.Pairwise fun a a' => a.1 ≤ a'.1)
    (hclear : ∀ a ∈ trace, ClearOfRounding win.windowMs a.1) :
    (answers (spendAlone win cfg.batch (prefixer cfg.keyPrefix rawKey)) (l2, .new) trace).map some
      = answers (checkAlone win cfg rawKey) (l2, .new) trace := by
  refine answers_of_inStep hcoupled hlow (inStep_new hsizer _ l2) ?_
  cases trace with
  | nil => trivial
  | cons a as =>
    refine allMet_of_sorted Prod.fst (p := fun a => ClearOfRounding win.windowMs a.1)
      (I := fun now s => GrantedBy win now s ∧ 0 ≤ s.2.credits) ?_ ?_ (a :: as) a.1
      ⟨fun h => absurd h (lt_irrefl _), le_rfl⟩ ?_ hsorted
    · intro now now' s hle h
      refine ⟨fun hpos => ?_, h.2⟩
      obtain ⟨t, ht, hexpires⟩ := h.1 hpos
      exact ⟨t, ht.trans hle, hexpires⟩
    · exact fun s a h hclear => ⟨sameEnd_of_grantedBy h.1 hclear, h.1.spendAlone h.2⟩
    · intro a' ha'
      refine ⟨?_, hclear a' ha'⟩
      rcases List.mem_cons.mp ha' with rfl | hmem
      · exact le_rfl
      · exact (List.pairwise_cons.mp hsorted).1 a' hmem

/-- **The spender answers what the limiter answers**, over any store and any trace in which no
denied check falls in another window than the credits that are left over. -/
theorem checkAlone_eq_spendAlone (hcoupled : cfg.windowCoupled = true)
    (hsizer : cfg.makeSizer = none) (hlow : cfg.lowWater ≤ 0) (rawKey : String) (l2 : L2)
    (trace : List (ℚ × ℚ))
    (hok : AllMet (spendAlone win cfg.batch (prefixer cfg.keyPrefix rawKey))
      (SameEnd win cfg.batch (prefixer cfg.keyPrefix rawKey)) (l2, .new) trace) :
    answers (checkAlone win cfg rawKey) (l2, .new) trace
      = (answers (spendAlone win cfg.batch (prefixer cfg.keyPrefix rawKey)) (l2, .new) trace).map
        some :=
  (answers_of_inStep hcoupled hlow (inStep_new hsizer _ l2) hok).symm

theorem fractional_limit_pos : (0 : ℚ) < 4 := by norm_num

theorem fractional_windowMs_pos : (0 : ℚ) < 2001 / 2 := by norm_num

/-- A fixed window of four a 1000.5 milliseconds. -/
def fractional : FixedWindow.Config := ⟨4, 2001 / 2, fractional_limit_pos, fractional_windowMs_pos⟩

/-- A window-coupled limiter that leases two at a time. -/
def byTwo : Config Unit where
  batch := 2
  lowWater := 0
  returnIdleAfterMs := none
  windowCoupled := true
  makeSizer := none
  size _ := 0
  observe u _ := u
  maxKeys := none
  keyPrefix := none
  one_le_batch := one_le_pair

/-- A lease, a spend of what is left, a denial, a check above the limit, and the next window. -/
theorem checkAlone_eq_spendAlone_trace :
    answers (checkAlone fractional byTwo "acme") (.empty, .new)
        [(100, 1), (200, 1), (300, 2), (400, 1), (500, 5), (1100, 0), (1200, 3)]
      = (answers (spendAlone fractional 2 "acme") (.empty, .new)
        [(100, 1), (200, 1), (300, 2), (400, 1), (500, 5), (1100, 0), (1200, 3)]).map some :=
  checkAlone_eq_spendAlone rfl rfl le_rfl "acme" .empty _ (by decide +kernel)

/-- A check above the limit at 1000.75, past the end of the window of the leftover credit and before
its rounding, is denied. The limiter then keeps the credit for the window of the denial and admits
from it at 1500; the spender discards it and leases. -/
theorem denied_lease_diverges :
    ¬ ∀ trace : List (ℚ × ℚ), trace.Pairwise (fun a a' => a.1 ≤ a'.1) →
      answers (checkAlone fractional byTwo "acme") (.empty, .new) trace
        = (answers (spendAlone fractional 2 "acme") (.empty, .new) trace).map some := by
  intro h
  have heq := h [(100, 1), (4003 / 4, 5), (1500, 1)] (by decide +kernel)
  exact absurd (congrArg (List.map (Option.map (Except.map Decision.remaining))) heq)
    (by decide +kernel)

end ThrottleKit.Leased
