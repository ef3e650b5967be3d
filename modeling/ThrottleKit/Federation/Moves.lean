import ThrottleKit.Federation.WindowCoupled

/-!
# The engine's steps as moves

One action of a process runs a stretch of its asynchronous code, with several effects on its state.
Here each such stretch is taken apart into *moves* with one effect each, stated once with all that
holds at that point of the code. An invariant of the engine is then proved by cases on the move.

Two of the moves hand tokens to an entry, and are the ones that can go wrong. `creditLease` records
whether the resumed call issued the lease (or only waited on it), and both credit moves record
whether the tokens are of the entry's window. A step in which neither goes wrong is made of moves in
which neither does (`step_moves`).

## Main definitions

* `Move` — one effect on the state of a process
* `creditsAsRider`, `creditsStale` — the two conditions on a step
* `Sound` — the bookkeeping every state of a process keeps

## Main results

* `step_moves` — every step is a sequence of moves
* `Sound.move` — every move keeps the bookkeeping
-/

namespace ThrottleKit.WindowCoupled

open AlignedWindow RegionalEscrow Machine

/-! ### Field lemmas -/

namespace Engine

@[simp] theorem setEntry_entries (s : Engine) (key : String) (e : Entry) :
    (s.setEntry key e).entries = Function.update s.entries key (some e) := rfl

@[simp] theorem setEntry_leases (s : Engine) (key : String) (e : Entry) :
    (s.setEntry key e).leases = s.leases := rfl

@[simp] theorem setEntry_calls (s : Engine) (key : String) (e : Entry) :
    (s.setEntry key e).calls = s.calls := rfl

@[simp] theorem addLease_entries (s : Engine) (lease : Lease) :
    (s.addLease lease).entries = s.entries := rfl

@[simp] theorem addLease_leases (s : Engine) (lease : Lease) :
    (s.addLease lease).leases = s.leases ++ [lease] := rfl

@[simp] theorem addLease_calls (s : Engine) (lease : Lease) :
    (s.addLease lease).calls = s.calls := rfl

@[simp] theorem setLease_entries (s : Engine) (l : ℕ) (lease : Lease) :
    (s.setLease l lease).entries = s.entries := rfl

@[simp] theorem setLease_leases (s : Engine) (l : ℕ) (lease : Lease) :
    (s.setLease l lease).leases = s.leases.set l lease := rfl

@[simp] theorem setLease_calls (s : Engine) (l : ℕ) (lease : Lease) :
    (s.setLease l lease).calls = s.calls := rfl

@[simp] theorem suspend_entries (s : Engine) (id : ℕ) (c : Call) :
    (s.suspend id c).entries = s.entries := rfl

@[simp] theorem suspend_leases (s : Engine) (id : ℕ) (c : Call) :
    (s.suspend id c).leases = s.leases := rfl

@[simp] theorem suspend_calls (s : Engine) (id : ℕ) (c : Call) :
    (s.suspend id c).calls = Function.update s.calls id (some c) := rfl

@[simp] theorem finish_entries (s : Engine) (id : ℕ) : (s.finish id).entries = s.entries := rfl

@[simp] theorem finish_leases (s : Engine) (id : ℕ) : (s.finish id).leases = s.leases := rfl

@[simp] theorem finish_calls (s : Engine) (id : ℕ) :
    (s.finish id).calls = Function.update s.calls id none := rfl

@[simp] theorem setEntry_setEntry (s : Engine) (key : String) (e e' : Entry) :
    (s.setEntry key e).setEntry key e' = s.setEntry key e' := by
  simp [setEntry, Function.update_idem]

end Engine

@[simp] theorem Entry.clearPending_balance (e : Entry) (l : ℕ) :
    (e.clearPending l).balance = e.balance := rfl

@[simp] theorem Entry.clearPending_windowStart (e : Entry) (l : ℕ) :
    (e.clearPending l).windowStart = e.windowStart := rfl

@[simp] theorem Entry.clearPending_windowExpiresAt (e : Entry) (l : ℕ) :
    (e.clearPending l).windowExpiresAt = e.windowExpiresAt := rfl

@[simp] theorem Entry.clearPending_pendingWindowStart (e : Entry) (l : ℕ) :
    (e.clearPending l).pendingWindowStart = e.pendingWindowStart := rfl

theorem Entry.pending_of_clearPending {e : Entry} {l l' : ℕ}
    (h : (e.clearPending l).pending = some l') : e.pending = some l' := by
  unfold clearPending at h
  split at h
  · cases h
  · exact h

/-! ### The moves -/

/-- The entry a key starts the window of `now` with. -/
def Entry.opened (cfg : Config) (now lastReconciled : ℚ) : Entry where
  balance := 0
  windowStart := alignedStart cfg.windowMs now
  windowExpiresAt := alignedStart cfg.windowMs now + cfg.windowMs
  pending := none
  pendingWindowStart := alignedStart cfg.windowMs now
  lastReconciledWindowStart := lastReconciled

/-- The entry of `e` after an admission of `cost`. -/
def Entry.spend (e : Entry) (cost : ℚ) : Entry := { e with balance := e.balance - cost }

/-- The entry of `e` after `tokens` were added to it. -/
def Entry.credit (e : Entry) (tokens : ℚ) : Entry := { e with balance := e.balance + tokens }

/-- How the body of a lease promise goes on, and what it makes visible. -/
inductive LeaseMove (cfg : Config) (lease : Lease) : LeaseStage → List Event → Prop
  | denied (h : lease.stage = .leasing) : LeaseMove cfg lease (.settled 0 lease.windowStart) []
  | granted (g : ℚ) (h : lease.stage = .leasing) (hg : 0 < g) (hL1 : cfg.regionalEscrow = false) :
      LeaseMove cfg lease (.settled g lease.windowStart) [.granted lease.key g lease.expiresAt]
  | grantedToEscrow (g : ℚ) (h : lease.stage = .leasing) (hg : 0 < g)
      (hL2 : cfg.regionalEscrow = true) :
      LeaseMove cfg lease (.refilling g) [.granted lease.key g lease.expiresAt]
  | refilled (g : ℚ) (h : lease.stage = .refilling g) : LeaseMove cfg lease (.leasingBack g) []
  | kept (g : ℚ) (h : lease.stage = .refilling g ∨ lease.stage = .leasingBack g) :
      LeaseMove cfg lease (.settled g lease.windowStart) []
  | leasedBack (g back source : ℚ) (h : lease.stage = .leasingBack g) (hback : 0 ≤ back) :
      LeaseMove cfg lease (.settled back source) []

/-- One effect on the state of a process. `rider` allows a call to credit a lease it did not issue,
`stale` allows tokens of one window to be credited in another. -/
inductive Move (cfg : Config) (rider stale : Prop) : Engine → List Event → Engine → Prop
  /-- Only the health tracking and the releases under way change. -/
  | upkeep {s : Engine} (healthy : Bool) (at' : ℚ) (probe : Option ℕ) (n : ℕ) (rs : List Release)
      (evs : List Event) (hevs : ∀ ev ∈ evs, ∃ k t w, ev = .reconciled k t w none) :
      Move cfg rider stale s evs
        { s with coordinatorHealthy := healthy, lastHealthProbeAt := at',
                 healthProbePending := probe, probes := n, releases := rs }
  /-- A call suspends on a probe or on the regional escrow. -/
  | suspend {s : Engine} (id : ℕ) (c : Call) (hwait : ∀ l ws, c.waiting ≠ .lease l ws)
      (hasked : ∀ w, c.waiting = .escrow w → cfg.regionalEscrow = true)
      (hserved : ∀ g w, c.waiting = .escrowReply g w →
        0 ≤ g ∧ ∃ c₀ w₀, s.calls id = some c₀ ∧ c₀.waiting = .escrow w₀) :
      Move cfg rider stale s [] (s.suspend id c)
  /-- A call suspends on the key's pending lease. -/
  | ride {s : Engine} (id : ℕ) (c : Call) (e : Entry) (l : ℕ) (he : s.entries c.key = some e)
      (hpending : e.pending = some l) (hwait : c.waiting = .lease l e.pendingWindowStart) :
      Move cfg rider stale s [] (s.suspend id c)
  /-- A call returns a denial or throws. -/
  | refuse {s : Engine} (id : ℕ) (ev : Event)
      (hev : (∃ err, ev = .rejected id err) ∨
        ∃ key cost d, ev = .decided id key cost d ∧ d.allowed = false) :
      Move cfg rider stale s [ev] (s.finish id)
  /-- `advance` creates an entry. -/
  | create {s : Engine} (key : String) (now : ℚ) (h : s.entries key = none) :
      Move cfg rider stale s [] (s.setEntry key (.opened cfg now (-1)))
  /-- `advance` rolls an entry. -/
  | roll {s : Engine} (key : String) (now lastReconciled : ℚ) (e : Entry)
      (he : s.entries key = some e) (hexpired : e.windowExpiresAt ≤ now) :
      Move cfg rider stale s [.rolled key (alignedStart cfg.windowMs now)]
        (s.setEntry key (.opened cfg now lastReconciled))
  /-- A call issues a lease. -/
  | issue {s : Engine} (id : ℕ) (key : String) (tokens now : ℚ) (e : Entry)
      (he : s.entries key = some e) :
      Move cfg rider stale s []
        ((s.addLease ⟨key, tokens, e.windowStart, e.windowExpiresAt, now, .leasing,
            some id⟩).setEntry key
          { e with pending := some s.leases.length, pendingWindowStart := e.windowStart })
  /-- The body of a lease promise goes on. -/
  | lease {s : Engine} (l : ℕ) (lease : Lease) (stage : LeaseStage) (evs : List Event)
      (hl : s.leases[l]? = some lease) (hmove : LeaseMove cfg lease stage evs) :
      Move cfg rider stale s evs (s.setLease l { lease with stage := stage })
  /-- A call picks up a grant of the regional escrow. -/
  | creditEscrow {s : Engine} (id : ℕ) (c : Call) (tokens source : ℚ) (e : Entry)
      (hc : s.calls id = some c) (hwait : c.waiting = .escrowReply tokens source)
      (htokens : 0 < tokens) (he : s.entries c.key = some e)
      (hstale : source = e.windowStart ∨ stale) :
      Move cfg rider stale s [.credited c.key tokens source e.windowStart none]
        (s.setEntry c.key (e.credit tokens))
  /-- A call picks up the grant of a lease in the window of the lease. -/
  | creditLease {s : Engine} (id : ℕ) (c : Call) (l : ℕ) (lease : Lease) (grant source : ℚ)
      (e : Entry) (hc : s.calls id = some c) (hwait : c.waiting = .lease l e.windowStart)
      (hl : s.leases[l]? = some lease) (hstage : lease.stage = .settled grant source)
      (hgrant : 0 < grant) (he : s.entries c.key = some e)
      (hrider : lease.claimant = some id ∨ rider) (hstale : source = e.windowStart ∨ stale) :
      Move cfg rider stale s [.credited c.key grant source e.windowStart (some l)]
        ((s.setLease l (lease.claimedBy id)).setEntry c.key ((e.clearPending l).credit grant))
  /-- A call resumes from a lease without a grant to credit: there is none, the window has rolled,
  or the entry is gone. -/
  | forfeit {s : Engine} (id : ℕ) (c : Call) (l : ℕ) (ws : ℚ) (lease : Lease) (grant source : ℚ)
      (evs : List Event) (hc : s.calls id = some c) (hwait : c.waiting = .lease l ws)
      (hl : s.leases[l]? = some lease) (hstage : lease.stage = .settled grant source)
      (hevs : (grant ≤ 0 ∧ evs = []) ∨ evs = [.reconciled c.key grant ws (some l)] ∨
        (s.entries c.key = none ∧ evs = [])) :
      Move cfg rider stale s evs (s.setLease l (lease.claimedBy id))
  /-- `e.pending` is cleared. -/
  | clearPending {s : Engine} (key : String) (e : Entry) (l : ℕ) (he : s.entries key = some e) :
      Move cfg rider stale s [] (s.setEntry key (e.clearPending l))
  /-- A call is admitted. -/
  | spend {s : Engine} (id : ℕ) (key : String) (cost : ℚ) (e : Entry)
      (he : s.entries key = some e) (hcost : cost ≤ e.balance) :
      Move cfg rider stale s [.decided id key cost (admitted cfg (e.spend cost))]
        ((s.setEntry key (e.spend cost)).finish id)
  /-- `reset`. -/
  | drop {s : Engine} (key : String) :
      Move cfg rider stale s [.dropped key]
        { s with entries := Function.update s.entries key none }
  /-- `close`. -/
  | clear {s : Engine} : Move cfg rider stale s [.cleared] { s with entries := fun _ => none }

/-- A sequence of moves. -/
abbrev Moves (cfg : Config) (rider stale : Prop) : Engine → List Event → Engine → Prop :=
  Chain (Move cfg rider stale)

/-! ### The two conditions on a step -/

/-- The action resumes a call that waited on another call's lease, with a grant to credit. -/
def creditsAsRider (s : Engine) : Act → Bool
  | .resume id _ =>
    match s.calls id with
    | some ⟨key, _, _, .lease l ws⟩ =>
      match s.leases[l]?, s.entries key with
      | some ⟨_, _, _, _, _, .settled grant _, claimant⟩, some e =>
        0 < grant && e.windowStart = ws && claimant ≠ some id
      | _, _ => false
    | _ => false
  | _ => false

/-- The action resumes a call with tokens to credit that are not of the window its entry is in. -/
def creditsStale (s : Engine) : Act → Bool
  | .resume id _ =>
    match s.calls id with
    | some ⟨key, _, _, .escrowReply granted source⟩ =>
      match s.entries key with
      | some e => 0 < granted && e.windowStart ≠ source
      | none => false
    | some ⟨key, _, _, .lease l ws⟩ =>
      match s.leases[l]?, s.entries key with
      | some ⟨_, _, _, _, _, .settled grant source, _⟩, some e =>
        0 < grant && e.windowStart = ws && e.windowStart ≠ source
      | _, _ => false
    | _ => false
  | _ => false

/-! ### Every step is a sequence of moves -/

section Steps

variable {cfg : Config} {rider stale : Prop}

theorem Moves.single {s s' : Engine} {evs : List Event} (h : Move cfg rider stale s evs s') :
    Moves cfg rider stale s evs s' := Chain.single h

/-- `advance` leaves the entry it returns in the map. -/
theorem advance_spec (s : Engine) (key : String) (now : ℚ) :
    Moves cfg rider stale s (advance cfg s key now).2.2 (advance cfg s key now).1 ∧
      (advance cfg s key now).1.entries key = some (advance cfg s key now).2.1 := by
  unfold advance
  cases he : s.entries key with
  | none => exact ⟨.single (.create key now he), by simp⟩
  | some e =>
    dsimp only
    by_cases hexp : e.windowExpiresAt ≤ now
    · rw [if_pos hexp]
      have hroll : ∀ r, Move cfg rider stale s [.rolled key (alignedStart cfg.windowMs now)]
          (s.setEntry key (.opened cfg now r)) := fun r => .roll key now r e he hexp
      split
      · refine ⟨?_, by simp⟩
        exact .cons (hroll _) (.single (.upkeep _ _ _ _ _ [] (by simp)))
      · split
        · refine ⟨?_, by simp⟩
          refine .cons (hroll _) (.single (.upkeep _ _ _ _ _ _ ?_))
          simp
        · exact ⟨.single (hroll _), by simp⟩
    · rw [if_neg hexp]
      exact ⟨.nil, he⟩

theorem leaseTurn_moves {s : Engine} {id : ℕ} {key : String} {cost now : ℚ} {e : Entry}
    (he : s.entries key = some e) :
    Moves cfg rider stale s (leaseTurn cfg s id key cost now e).2
      (leaseTurn cfg s id key cost now e).1 := by
  unfold leaseTurn
  split
  · exact .single (.refuse id _ (.inr ⟨_, _, _, rfl, rfl⟩))
  · split
    · rename_i l hl
      exact .single (.ride id _ e l he hl rfl)
    · refine Chain.cons (Move.issue id key (max cfg.batch cost) now e he) (.single ?_)
      exact .ride id _ _ s.leases.length (Function.update_self ..) rfl rfl

theorem loopTurn_moves {s : Engine} {id : ℕ} {key : String} {cost now : ℚ} {e : Entry}
    (he : s.entries key = some e) :
    Moves cfg rider stale s (loopTurn cfg s id key cost now e).2
      (loopTurn cfg s id key cost now e).1 := by
  unfold loopTurn
  dsimp only
  split
  · split
    · rename_i hL2
      exact .single (.suspend id _ (by simp) (by simp [hL2.1]) (by simp))
    · exact leaseTurn_moves he
  · rename_i hcost
    exact .single (.spend id key cost e he (not_lt.mp hcost))

theorem enter_moves (s : Engine) (id : ℕ) (key : String) (cost now : ℚ) :
    Moves cfg rider stale s (enter cfg s id key cost now).2 (enter cfg s id key cost now).1 := by
  obtain ⟨hadv, he⟩ := @advance_spec cfg rider stale s key now
  exact hadv.append (loopTurn_moves he)

theorem maybeProbeHealth_moves (s : Engine) (now : ℚ) :
    Moves cfg rider stale s [] (maybeProbeHealth cfg s now).1 := by
  unfold maybeProbeHealth
  split_ifs
  all_goals try exact .nil
  cases s.healthProbePending with
  | some p => exact .nil
  | none => exact .single (.upkeep _ _ _ _ _ [] (by simp))

theorem checkKey_moves (s : Engine) (id : ℕ) (key : String) (cost now : ℚ) :
    Moves cfg rider stale s (checkKey cfg s id key cost now).2
      (checkKey cfg s id key cost now).1 := by
  unfold checkKey
  split
  · exact .single (.refuse id _ (.inl ⟨_, rfl⟩))
  · split
    · refine (maybeProbeHealth_moves s now).append (.single ?_)
      exact .suspend id _ (by simp) (by simp) (by simp)
    · exact enter_moves s id key cost now

theorem resumeEscrow_moves {s : Engine} {id : ℕ} {c : Call} {granted source : ℚ} (now : ℚ)
    (hc : s.calls id = some c) (hwait : c.waiting = .escrowReply granted source)
    (hstale : ∀ e, s.entries c.key = some e → 0 < granted → source = e.windowStart ∨ stale) :
    Moves cfg rider stale s (resumeEscrow cfg s id c granted source now).2
      (resumeEscrow cfg s id c granted source now).1 := by
  unfold resumeEscrow
  cases he : s.entries c.key with
  | none => exact checkKey_moves s id c.key c.cost now
  | some e =>
    dsimp only
    by_cases hpos : 0 < granted
    · rw [if_pos hpos]
      have hcredit : Move cfg rider stale s _ _ :=
        .creditEscrow id c granted source e hc hwait hpos he (hstale e he hpos)
      exact .cons hcredit (loopTurn_moves (by simp [Entry.credit]))
    · rw [if_neg hpos]
      exact leaseTurn_moves he

theorem resumeLease_moves {s : Engine} {id : ℕ} {c : Call} {l : ℕ} {ws grant source : ℚ}
    {lease : Lease} (now : ℚ) (hc : s.calls id = some c) (hwait : c.waiting = .lease l ws)
    (hl : s.leases[l]? = some lease) (hstage : lease.stage = .settled grant source)
    (hrider : ∀ e, s.entries c.key = some e → 0 < grant → e.windowStart = ws →
      lease.claimant = some id ∨ rider)
    (hstale : ∀ e, s.entries c.key = some e → 0 < grant → e.windowStart = ws →
      source = e.windowStart ∨ stale) :
    Moves cfg rider stale s
      (resumeLease cfg (s.setLease l (lease.claimedBy id)) id c l ws grant source now).2
      (resumeLease cfg (s.setLease l (lease.claimedBy id)) id c l ws grant source now).1 := by
  have hforfeit : ∀ evs, ((grant ≤ 0 ∧ evs = []) ∨ evs = [.reconciled c.key grant ws (some l)] ∨
      (s.entries c.key = none ∧ evs = [])) →
      Move cfg rider stale s evs (s.setLease l (lease.claimedBy id)) := fun evs hevs =>
    .forfeit id c l ws lease grant source evs hc hwait hl hstage hevs
  unfold resumeLease
  rw [Engine.setLease_entries]
  cases he : s.entries c.key with
  | none =>
    exact (Chain.single (hforfeit [] (.inr (.inr ⟨he, rfl⟩)))).append
      (checkKey_moves _ id c.key c.cost now)
  | some e =>
    have hclear : Move cfg rider stale (s.setLease l (lease.claimedBy id)) []
        ((s.setLease l (lease.claimedBy id)).setEntry c.key (e.clearPending l)) :=
      .clearPending c.key e l he
    dsimp only
    split
    · rename_i hpos
      split
      · refine .cons (hforfeit _ (.inr (.inl rfl))) (.cons hclear (loopTurn_moves ?_))
        simp
      · rename_i hws
        have hws : e.windowStart = ws := not_not.mp hws
        subst hws
        have hcredit : Move cfg rider stale s _ _ :=
          .creditLease id c l lease grant source e hc hwait hl hstage hpos he
            (hrider e he hpos rfl) (hstale e he hpos rfl)
        rw [Engine.setEntry_setEntry]
        exact .cons hcredit (loopTurn_moves (by simp [Entry.credit]))
    · rename_i hpos
      refine .cons (hforfeit [] (.inl ⟨not_lt.mp hpos, rfl⟩)) (.cons hclear (.single ?_))
      exact .refuse id _ (.inr ⟨_, _, _, rfl, rfl⟩)

end Steps

theorem creditsAsRider_eq_false {s : Engine} {id l : ℕ} {now ws grant source : ℚ} {c : Call}
    {lease : Lease} {e : Entry} (hc : s.calls id = some c) (hwait : c.waiting = .lease l ws)
    (hl : s.leases[l]? = some lease) (hstage : lease.stage = .settled grant source)
    (he : s.entries c.key = some e) (hpos : 0 < grant) (hws : e.windowStart = ws) :
    lease.claimant = some id ∨ creditsAsRider s (.resume id now) = true := by
  obtain ⟨key, cost, now', waiting⟩ := c
  obtain ⟨_, _, _, _, _, stage, claimant⟩ := lease
  dsimp only at hwait hstage he ⊢
  subst hwait hstage
  by_cases hcl : claimant = some id
  · exact .inl hcl
  · right
    simp [creditsAsRider, hc, hl, he, hpos, hws, hcl]

theorem stale_of_escrowReply {s : Engine} {id : ℕ} {now granted source : ℚ} {c : Call} {e : Entry}
    (hc : s.calls id = some c) (hwait : c.waiting = .escrowReply granted source)
    (he : s.entries c.key = some e) (hpos : 0 < granted) :
    source = e.windowStart ∨ creditsStale s (.resume id now) = true := by
  obtain ⟨key, cost, now', waiting⟩ := c
  dsimp only at hwait he
  subst hwait
  by_cases hsrc : source = e.windowStart
  · exact .inl hsrc
  · right
    simp [creditsStale, hc, he, hpos, Ne.symm hsrc]

theorem stale_of_lease {s : Engine} {id l : ℕ} {now ws grant source : ℚ} {c : Call} {lease : Lease}
    {e : Entry} (hc : s.calls id = some c) (hwait : c.waiting = .lease l ws)
    (hl : s.leases[l]? = some lease) (hstage : lease.stage = .settled grant source)
    (he : s.entries c.key = some e) (hpos : 0 < grant) (hws : e.windowStart = ws) :
    source = e.windowStart ∨ creditsStale s (.resume id now) = true := by
  obtain ⟨key, cost, now', waiting⟩ := c
  obtain ⟨_, _, _, _, _, stage, claimant⟩ := lease
  dsimp only at hwait hstage he
  subst hwait hstage hws
  by_cases hsrc : source = e.windowStart
  · exact .inl hsrc
  · right
    simp [creditsStale, hc, hl, he, hpos, Ne.symm hsrc]

theorem resume_moves {cfg : Config} {s s' : Engine} {id : ℕ} {now : ℚ} {evs : List Event}
    (h : resume cfg s id now = some (s', evs)) :
    Moves cfg (creditsAsRider s (.resume id now)) (creditsStale s (.resume id now)) s evs s' := by
  obtain ⟨c, hc, h⟩ := Option.bind_eq_some_iff.mp h
  cases hwait : c.waiting with
  | probe p =>
    simp only [hwait] at h
    split at h
    · cases h
    · cases h
      exact enter_moves s id c.key c.cost c.now
  | escrow w => simp [hwait] at h
  | escrowReply granted source =>
    simp only [hwait, Option.some.injEq] at h
    have hmoves := @resumeEscrow_moves cfg (creditsAsRider s (.resume id now))
      (creditsStale s (.resume id now)) s id c granted source now hc hwait
      fun e he hpos => stale_of_escrowReply hc hwait he hpos
    rwa [h] at hmoves
  | lease l ws =>
    simp only [hwait] at h
    obtain ⟨lease, hl, h⟩ := Option.bind_eq_some_iff.mp h
    cases hstage : lease.stage with
    | settled grant source =>
      simp only [hstage, Option.some.injEq] at h
      have hmoves := @resumeLease_moves cfg (creditsAsRider s (.resume id now))
        (creditsStale s (.resume id now)) s id c l ws grant source lease now hc hwait hl hstage
        (fun e he hpos hws => creditsAsRider_eq_false hc hwait hl hstage he hpos hws)
        (fun e he hpos hws => stale_of_lease hc hwait hl hstage he hpos hws)
      rwa [h] at hmoves
    | leasing => simp [hstage] at h
    | refilling g => simp [hstage] at h
    | leasingBack g => simp [hstage] at h

theorem coordinatorReply_moves {cfg : Config} {rider stale : Prop} {s s' : Engine} {l : ℕ}
    {reply : Option ℚ} {evs : List Event} (h : coordinatorReply cfg s l reply = some (s', evs)) :
    Moves cfg rider stale s evs s' := by
  obtain ⟨lease, hl, h⟩ := Option.bind_eq_some_iff.mp h
  by_cases hstage : lease.stage = .leasing
  · simp only [hstage, ne_eq, not_true_eq_false, if_false] at h
    have hhealth : ∀ healthy at', Move cfg rider stale s []
        { s with coordinatorHealthy := healthy, lastHealthProbeAt := at' } := fun healthy at' =>
      .upkeep healthy at' s.healthProbePending s.probes s.releases [] (by simp)
    cases reply with
    | none =>
      dsimp only at h
      split at h
      · cases h
        exact .cons (hhealth false lease.now) (.single (.lease l lease _ [] hl (.denied hstage)))
      · cases h
        exact .single (.lease l lease _ [] hl (.denied hstage))
    | some granted =>
      dsimp only at h
      split at h
      · cases h
        exact .cons (hhealth true s.lastHealthProbeAt)
          (.single (.lease l lease _ [] hl (.denied hstage)))
      · rename_i hpos
        cases h
        refine .cons (hhealth true s.lastHealthProbeAt) (.single (.lease l lease _ _ hl ?_))
        cases hL2 : cfg.regionalEscrow with
        | true => exact .grantedToEscrow granted hstage (not_le.mp hpos) hL2
        | false => exact .granted granted hstage (not_le.mp hpos) hL2
  · simp [hstage] at h

theorem escrowLease_moves {cfg : Config} {rider stale : Prop} {l2 l2' : Escrow} {s s' : Engine}
    {id : ℕ} {now : ℚ} {evs : List Event} (h : escrowLease l2 s id now = some (l2', s', evs)) :
    Moves cfg rider stale s evs s' := by
  obtain ⟨c, hc, h⟩ := Option.bind_eq_some_iff.mp h
  cases hwait : c.waiting with
  | escrow wanted =>
    have hreply : ∀ granted source, 0 ≤ granted → Move cfg rider stale s []
        (s.suspend id { c with waiting := .escrowReply granted source }) := by
      intro granted source hnn
      refine .suspend id _ (by simp) (by simp) ?_
      rintro g w heq
      obtain ⟨rfl, -⟩ := Await.escrowReply.inj heq
      exact ⟨hnn, c, wanted, hc, hwait⟩
    simp only [hwait] at h
    cases hlease : l2.lease c.key wanted now with
    | none =>
      simp only [hlease, Option.some.injEq, Prod.mk.injEq] at h
      obtain ⟨-, rfl, rfl⟩ := h
      exact .single (hreply 0 0 le_rfl)
    | some r =>
      simp only [hlease, Option.some.injEq, Prod.mk.injEq] at h
      obtain ⟨-, rfl, rfl⟩ := h
      exact .single (hreply _ _ (Escrow.lease_nonneg hlease))
  | probe p => simp [hwait] at h
  | escrowReply g w => simp [hwait] at h
  | lease l ws => simp [hwait] at h

theorem escrowRefill_moves {cfg : Config} {rider stale : Prop} {l2 l2' : Escrow} {s s' : Engine}
    {l : ℕ} {now : ℚ} {evs : List Event} (h : escrowRefill l2 s l now = some (l2', s', evs)) :
    Moves cfg rider stale s evs s' := by
  obtain ⟨lease, hl, h⟩ := Option.bind_eq_some_iff.mp h
  cases hstage : lease.stage with
  | refilling granted =>
    simp only [hstage] at h
    cases hrefill : l2.refill lease.key granted lease.windowStart now with
    | none =>
      simp only [hrefill, Option.some.injEq, Prod.mk.injEq] at h
      obtain ⟨-, rfl, rfl⟩ := h
      exact .single (.lease l lease _ [] hl (.kept granted (.inl hstage)))
    | some r =>
      simp only [hrefill, Option.some.injEq, Prod.mk.injEq] at h
      obtain ⟨-, rfl, rfl⟩ := h
      exact .single (.lease l lease _ [] hl (.refilled granted hstage))
  | leasing => simp [hstage] at h
  | leasingBack g => simp [hstage] at h
  | settled g w => simp [hstage] at h

theorem escrowLeaseBack_moves {cfg : Config} {rider stale : Prop} {l2 l2' : Escrow}
    {s s' : Engine} {l : ℕ} {now : ℚ} {evs : List Event}
    (h : escrowLeaseBack l2 s l now = some (l2', s', evs)) : Moves cfg rider stale s evs s' := by
  obtain ⟨lease, hl, h⟩ := Option.bind_eq_some_iff.mp h
  cases hstage : lease.stage with
  | leasingBack granted =>
    simp only [hstage] at h
    cases hlease : l2.lease lease.key lease.tokens now with
    | none =>
      simp only [hlease, Option.some.injEq, Prod.mk.injEq] at h
      obtain ⟨-, rfl, rfl⟩ := h
      exact .single (.lease l lease _ [] hl (.kept granted (.inr hstage)))
    | some r =>
      simp only [hlease, Option.some.injEq, Prod.mk.injEq] at h
      obtain ⟨-, rfl, rfl⟩ := h
      exact .single (.lease l lease _ [] hl
        (.leasedBack granted _ _ hstage (Escrow.lease_nonneg hlease)))
  | leasing => simp [hstage] at h
  | refilling g => simp [hstage] at h
  | settled g w => simp [hstage] at h

theorem escrowRelease_moves {cfg : Config} {rider stale : Prop} {l2 l2' : Escrow} {s s' : Engine}
    {i : ℕ} {evs : List Event} (h : escrowRelease l2 s i = some (l2', s', evs)) :
    Moves cfg rider stale s evs s' := by
  obtain ⟨r, hr, h⟩ := Option.bind_eq_some_iff.mp h
  have hserved : ∀ evs, (∀ ev ∈ evs, ∃ k t w, ev = Event.reconciled k t w none) →
      Move cfg rider stale s evs { s with releases := s.releases.eraseIdx i } := fun evs hevs =>
    .upkeep _ _ _ _ _ evs hevs
  dsimp only at h
  split at h
  · split at h <;> (simp only [Option.some.injEq, Prod.mk.injEq] at h; obtain ⟨-, rfl, rfl⟩ := h)
    · exact .single (hserved _ (by simp))
    · exact .single (hserved _ (by simp))
  · simp only [Option.some.injEq, Prod.mk.injEq] at h
    obtain ⟨-, rfl, rfl⟩ := h
    exact .single (hserved _ (by simp))

/-- **Every step is a sequence of moves**, in which a call credits another call's lease only if the
step has it do so, and credits tokens of another window only if the step has it do so. -/
theorem step_moves {cfg : Config} {l2 l2' : Escrow} {s s' : Engine} {a : Act} {evs : List Event}
    (h : step cfg l2 s a = some (l2', s', evs)) :
    Moves cfg (creditsAsRider s a) (creditsStale s a) s evs s' := by
  cases a with
  | check id rawKey cost now =>
    simp only [step] at h
    split at h
    · cases h
    · obtain ⟨-, rfl, rfl⟩ : l2 = l2' ∧ _ = s' ∧ _ = evs := by simpa [Prod.ext_iff] using h
      exact checkKey_moves s id (prefixer cfg.keyPrefix rawKey) cost now
  | resume id now =>
    obtain ⟨r, hr, heq⟩ := Option.map_eq_some_iff.mp h
    cases heq
    exact resume_moves hr
  | coordinator l reply =>
    obtain ⟨r, hr, heq⟩ := Option.map_eq_some_iff.mp h
    cases heq
    exact coordinatorReply_moves hr
  | probed reply =>
    obtain ⟨r, hr, heq⟩ := Option.map_eq_some_iff.mp h
    cases heq
    unfold probeReply at hr
    split at hr
    · cases hr
    · cases hr
      exact .single (.upkeep _ _ _ _ _ [] (by simp))
  | escrowLease id now => exact escrowLease_moves h
  | escrowRefill l now => exact escrowRefill_moves h
  | escrowLeaseBack l now => exact escrowLeaseBack_moves h
  | escrowRelease i => exact escrowRelease_moves h
  | escrowHealth healthy =>
    cases h
    exact .nil
  | reset rawKey =>
    cases h
    exact .single (.drop _)
  | close =>
    cases h
    exact .single .clear

end ThrottleKit.WindowCoupled
