import ThrottleKit.Federation.Moves

/-!
# The bookkeeping of a federation process

What every state of a process keeps, whatever the coordinator, the regional escrow and the clock
do: balances are nonnegative, ends lie one window after starts, and whoever refers to a lease (an
entry's `pending`, a suspended call) refers to a lease of the same key, drawn against the window
that was captured with the reference.

## Main definitions

* `Sound` — the bookkeeping

## Main results

* `Sound.move`, `Sound.step` — it is kept by every move, and so by every step
-/

namespace ThrottleKit.WindowCoupled

open AlignedWindow RegionalEscrow Machine

/-- Lease `l` is one of `key`, drawn against the window starting at `ws`. -/
def LeaseAt (s : Engine) (l : ℕ) (key : String) (ws : ℚ) : Prop :=
  ∃ lease, s.leases[l]? = some lease ∧ lease.key = key ∧ lease.windowStart = ws

/-- The `await` a call is suspended at is one it can have reached. -/
def WaitsOk (cfg : Config) (s : Engine) (c : Call) : Prop :=
  match c.waiting with
  | .probe _ => True
  | .escrow _ => cfg.regionalEscrow = true
  | .escrowReply granted _ => cfg.regionalEscrow = true ∧ 0 ≤ granted
  | .lease l ws => LeaseAt s l c.key ws

/-- The stage of a lease is one it can have reached; without a regional escrow its tokens are of
the window it was drawn against. -/
def StageOk (cfg : Config) (lease : Lease) : Prop :=
  match lease.stage with
  | .leasing => True
  | .refilling granted | .leasingBack granted => cfg.regionalEscrow = true ∧ 0 < granted
  | .settled grant source => 0 ≤ grant ∧ (cfg.regionalEscrow = false → source = lease.windowStart)

/-- The bookkeeping of a process. -/
structure Sound (cfg : Config) (s : Engine) : Prop where
  balance_nonneg : ∀ key e, s.entries key = some e → 0 ≤ e.balance
  entry_expires : ∀ key e, s.entries key = some e → e.windowExpiresAt = e.windowStart + cfg.windowMs
  pending_at : ∀ key e l, s.entries key = some e → e.pending = some l →
    LeaseAt s l key e.pendingWindowStart
  lease_expires : ∀ lease ∈ s.leases, lease.expiresAt = lease.windowStart + cfg.windowMs
  stage_ok : ∀ lease ∈ s.leases, StageOk cfg lease
  waits_ok : ∀ id c, s.calls id = some c → WaitsOk cfg s c

theorem Sound.new (cfg : Config) : Sound cfg .new where
  balance_nonneg := by rintro key e ⟨⟩
  entry_expires := by rintro key e ⟨⟩
  pending_at := by rintro key e l ⟨⟩
  lease_expires := by rintro lease ⟨⟩
  stage_ok := by rintro lease ⟨⟩
  waits_ok := by rintro id c ⟨⟩

section Preservation

variable {cfg : Config} {s s' : Engine}

/-- Leases keep their index, key and window. -/
def Keeps (s s' : Engine) : Prop := ∀ l key ws, LeaseAt s l key ws → LeaseAt s' l key ws

theorem WaitsOk.of_keeps {c : Call} (h : WaitsOk cfg s c) (hkeeps : Keeps s s') :
    WaitsOk cfg s' c := by
  obtain ⟨key, cost, now, waiting⟩ := c
  cases waiting with
  | probe p => trivial
  | escrow w => exact h
  | escrowReply g w => exact h
  | lease l ws => exact hkeeps l key ws h

/-- Changing nothing but the entries. -/
theorem Sound.of_entries (h : Sound cfg s) (hleases : s'.leases = s.leases)
    (hcalls : s'.calls = s.calls)
    (hentries : ∀ key e, s'.entries key = some e → s.entries key = some e ∨
      (0 ≤ e.balance ∧ e.windowExpiresAt = e.windowStart + cfg.windowMs ∧
        ∀ l, e.pending = some l → LeaseAt s l key e.pendingWindowStart)) : Sound cfg s' := by
  have hkeeps : Keeps s s' := by
    intro l key ws hat
    simpa [LeaseAt, hleases] using hat
  constructor
  · intro key e he
    rcases hentries key e he with hold | hnew
    · exact h.balance_nonneg key e hold
    · exact hnew.1
  · intro key e he
    rcases hentries key e he with hold | hnew
    · exact h.entry_expires key e hold
    · exact hnew.2.1
  · intro key e l he hp
    rcases hentries key e he with hold | hnew
    · exact hkeeps _ _ _ (h.pending_at key e l hold hp)
    · exact hkeeps _ _ _ (hnew.2.2 l hp)
  · rw [hleases]
    exact h.lease_expires
  · rw [hleases]
    exact h.stage_ok
  · intro id c hc
    rw [hcalls] at hc
    exact (h.waits_ok id c hc).of_keeps hkeeps

theorem Sound.setEntry (h : Sound cfg s) {key : String} {e : Entry} (hbalance : 0 ≤ e.balance)
    (hexpires : e.windowExpiresAt = e.windowStart + cfg.windowMs)
    (hpending : ∀ l, e.pending = some l → LeaseAt s l key e.pendingWindowStart) :
    Sound cfg (s.setEntry key e) := by
  refine h.of_entries rfl rfl fun key' e' he' => ?_
  rw [Engine.setEntry_entries, Function.update_apply] at he'
  split at he'
  · rename_i hkey
    cases he'
    subst hkey
    exact .inr ⟨hbalance, hexpires, hpending⟩
  · exact .inl he'

theorem Sound.suspend (h : Sound cfg s) {id : ℕ} {c : Call} (hc : WaitsOk cfg s c) :
    Sound cfg (s.suspend id c) := by
  refine ⟨h.balance_nonneg, h.entry_expires, h.pending_at, h.lease_expires, h.stage_ok, ?_⟩
  intro id' c' hc'
  rw [Engine.suspend_calls, Function.update_apply] at hc'
  split at hc'
  · cases hc'
    exact hc
  · exact h.waits_ok id' c' hc'

theorem Sound.finish (h : Sound cfg s) (id : ℕ) : Sound cfg (s.finish id) := by
  refine ⟨h.balance_nonneg, h.entry_expires, h.pending_at, h.lease_expires, h.stage_ok, ?_⟩
  intro id' c' hc'
  rw [Engine.finish_calls, Function.update_apply] at hc'
  split at hc'
  · cases hc'
  · exact h.waits_ok id' c' hc'

/-- Changing nothing but the leases, each keeping its key and window. -/
theorem Sound.of_leases (h : Sound cfg s) (hentries : s'.entries = s.entries)
    (hcalls : s'.calls = s.calls) (hkeeps : Keeps s s')
    (hexpires : ∀ lease ∈ s'.leases, lease.expiresAt = lease.windowStart + cfg.windowMs)
    (hstage : ∀ lease ∈ s'.leases, StageOk cfg lease) : Sound cfg s' := by
  refine ⟨?_, ?_, ?_, hexpires, hstage, ?_⟩
  · rw [hentries]
    exact h.balance_nonneg
  · rw [hentries]
    exact h.entry_expires
  · intro key e l he hp
    rw [hentries] at he
    exact hkeeps _ _ _ (h.pending_at key e l he hp)
  · intro id c hc
    rw [hcalls] at hc
    exact (h.waits_ok id c hc).of_keeps hkeeps

theorem keeps_addLease (lease : Lease) : Keeps s (s.addLease lease) := by
  rintro l key ws ⟨lease', hl, hat⟩
  refine ⟨lease', ?_, hat⟩
  rw [Engine.addLease_leases, List.getElem?_append_left (List.getElem?_eq_some_iff.mp hl).1]
  exact hl

theorem Sound.addLease (h : Sound cfg s) {lease : Lease}
    (hexpires : lease.expiresAt = lease.windowStart + cfg.windowMs)
    (hstage : lease.stage = .leasing) : Sound cfg (s.addLease lease) := by
  refine h.of_leases rfl rfl (keeps_addLease lease) ?_ ?_
  · intro lease' hmem
    rcases List.mem_append.mp hmem with hold | hnew
    · exact h.lease_expires lease' hold
    · rw [List.mem_singleton.mp hnew]
      exact hexpires
  · intro lease' hmem
    rcases List.mem_append.mp hmem with hold | hnew
    · exact h.stage_ok lease' hold
    · rw [List.mem_singleton.mp hnew]
      simp [StageOk, hstage]

theorem keeps_setLease {l : ℕ} {lease lease' : Lease} (hl : s.leases[l]? = some lease)
    (hkey : lease'.key = lease.key) (hws : lease'.windowStart = lease.windowStart) :
    Keeps s (s.setLease l lease') := by
  rintro l' key ws ⟨lease₁, hl', hat⟩
  by_cases hll : l = l'
  · subst hll
    obtain rfl : lease = lease₁ := Option.some.inj (hl.symm.trans hl')
    refine ⟨lease', ?_, hkey.trans hat.1, hws.trans hat.2⟩
    rw [Engine.setLease_leases, List.getElem?_set_self (List.getElem?_eq_some_iff.mp hl).1]
  · exact ⟨lease₁, by rw [Engine.setLease_leases, List.getElem?_set_ne hll, hl'], hat⟩

theorem Sound.setLease (h : Sound cfg s) {l : ℕ} {lease lease' : Lease}
    (hl : s.leases[l]? = some lease) (hkey : lease'.key = lease.key)
    (hws : lease'.windowStart = lease.windowStart) (hexp : lease'.expiresAt = lease.expiresAt)
    (hstage : StageOk cfg lease') : Sound cfg (s.setLease l lease') := by
  have hmem := List.mem_of_getElem? hl
  refine h.of_leases rfl rfl (keeps_setLease hl hkey hws) ?_ ?_
  · intro lease₁ hmem₁
    rcases List.mem_or_eq_of_mem_set hmem₁ with hold | rfl
    · exact h.lease_expires lease₁ hold
    · rw [hexp, hws]
      exact h.lease_expires lease hmem
  · intro lease₁ hmem₁
    rcases List.mem_or_eq_of_mem_set hmem₁ with hold | rfl
    · exact h.stage_ok lease₁ hold
    · exact hstage

theorem Sound.claimedBy (h : Sound cfg s) {l : ℕ} {lease : Lease} (id : ℕ)
    (hl : s.leases[l]? = some lease) : Sound cfg (s.setLease l (lease.claimedBy id)) :=
  h.setLease hl rfl rfl rfl (h.stage_ok lease (List.mem_of_getElem? hl))

theorem LeaseMove.stageOk {lease : Lease} {stage : LeaseStage} {evs : List Event}
    (h : StageOk cfg lease) (hmove : LeaseMove cfg lease stage evs) :
    StageOk cfg { lease with stage := stage } := by
  cases hmove with
  | denied hst => exact ⟨le_rfl, fun _ => rfl⟩
  | granted g hst hg hL1 => exact ⟨hg.le, fun _ => rfl⟩
  | grantedToEscrow g hst hg hL2 => exact ⟨hL2, hg⟩
  | refilled g hst =>
    rw [StageOk, hst] at h
    exact h
  | kept g hst =>
    rcases hst with hst | hst <;> (rw [StageOk, hst] at h; exact ⟨h.2.le, fun _ => rfl⟩)
  | leasedBack g back source hst hback =>
    rw [StageOk, hst] at h
    exact ⟨hback, fun hL1 => by simp [hL1] at h⟩

/-- **Every move keeps the bookkeeping.** -/
theorem Sound.move {rider stale : Prop} {evs : List Event} (h : Sound cfg s)
    (hmove : Move cfg rider stale s evs s') : Sound cfg s' := by
  cases hmove with
  | upkeep => exact ⟨h.balance_nonneg, h.entry_expires, h.pending_at, h.lease_expires, h.stage_ok,
      h.waits_ok⟩
  | suspend id c hwait hasked hserved =>
    refine h.suspend ?_
    unfold WaitsOk
    split
    · trivial
    · exact hasked _ ‹_›
    · obtain ⟨hnn, c₀, w₀, hc₀, hw₀⟩ := hserved _ _ ‹_›
      have hasked₀ := h.waits_ok id c₀ hc₀
      rw [WaitsOk, hw₀] at hasked₀
      exact ⟨hasked₀, hnn⟩
    · exact absurd ‹_› (hwait _ _)
  | ride id c e l he hpending hwait =>
    refine h.suspend ?_
    rw [WaitsOk, hwait]
    exact h.pending_at c.key e l he hpending
  | refuse id ev hev => exact h.finish id
  | create key now hnone => exact h.setEntry le_rfl rfl (by rintro l ⟨⟩)
  | roll key now r e he hexpired => exact h.setEntry le_rfl rfl (by rintro l ⟨⟩)
  | issue id key tokens now e he =>
    have hexpires := h.entry_expires key e he
    refine (h.addLease hexpires rfl).setEntry (h.balance_nonneg key e he) hexpires ?_
    rintro l ⟨⟩
    exact ⟨_, by rw [Engine.addLease_leases, List.getElem?_concat_length], rfl, rfl⟩
  | lease l lease stage evs hl hlease =>
    exact h.setLease hl rfl rfl rfl (hlease.stageOk (h.stage_ok lease (List.mem_of_getElem? hl)))
  | creditEscrow id c tokens source e hc hwait htokens he hstale =>
    refine h.setEntry ?_ (h.entry_expires _ e he) (fun l hl => h.pending_at _ e l he hl)
    exact add_nonneg (h.balance_nonneg _ e he) htokens.le
  | creditLease id c l lease grant source e hc hwait hl hstage hgrant he hrider hstale =>
    refine (h.claimedBy id hl).setEntry ?_ (h.entry_expires _ e he) fun l' hl' => ?_
    · exact add_nonneg (h.balance_nonneg _ e he) hgrant.le
    · exact (h.claimedBy id hl).pending_at _ e l' he (Entry.pending_of_clearPending hl')
  | forfeit id c l ws lease grant source evs hc hwait hl hstage hevs => exact h.claimedBy id hl
  | clearPending key e l he =>
    refine h.setEntry (h.balance_nonneg _ e he) (h.entry_expires _ e he) fun l' hl' => ?_
    exact h.pending_at _ e l' he (Entry.pending_of_clearPending hl')
  | spend id key cost e he hcost =>
    have hspent : Sound cfg (s.setEntry key (e.spend cost)) := by
      refine h.setEntry ?_ (h.entry_expires key e he) fun l hl => h.pending_at key e l he hl
      exact sub_nonneg.mpr hcost
    exact hspent.finish id
  | drop key =>
    refine h.of_entries rfl rfl fun key' e he => ?_
    simp only [Function.update_apply] at he
    split at he
    · cases he
    · exact .inl he
  | clear => exact h.of_entries rfl rfl (by rintro key e ⟨⟩)

theorem Sound.moves {rider stale : Prop} {evs : List Event} (h : Sound cfg s)
    (hmoves : Moves cfg rider stale s evs s') : Sound cfg s' :=
  @Chain.invariant _ _ _ (fun s _ => Sound cfg s) (fun _ _ _ _ hs hm => hs.move hm) _ _ [] _
    hmoves h

/-- Every step keeps the bookkeeping. -/
theorem Sound.step {l2 l2' : Escrow} {a : Act} {evs : List Event} (h : Sound cfg s)
    (hstep : step cfg l2 s a = some (l2', s', evs)) : Sound cfg s' :=
  h.moves (step_moves hstep)

end Preservation

end ThrottleKit.WindowCoupled
