import ThrottleKit.Federation.Bookkeeping
import ThrottleKit.Lib.Purse

/-!
# Safety of the federation across regions

Any number of regions share one coordinator. What a region holds for a window is its balance and
the grants that have landed and that the issuing call has yet to pick up; the coordinator's grants
pay in, the admissions take out. As long as only the call that issued a lease picks its grant up,
no region admits more than it was granted, and so the regions together admit no more than the
coordinator granted.

The engine does not ensure that: every call that waited on a shared lease adds the grant to the
balance (`coalesced_lease_overspends`).

## Main definitions

* `posting`, `held` — the accounts of a region, one for each key and window end
* `totalGranted`, `totalAdmitted` — what the coordinator granted and the regions admitted
* `CreditedOnce` — each lease is credited at most once

## Main results

* `admitted_le_limit_of_granted_le` — safety, in runs in which no call credits another call's lease
* `coalesced_lease_overspends` — without that condition it fails
-/

namespace ThrottleKit.WindowCoupled

open AlignedWindow RegionalEscrow Machine Purse

/-! ### What the regions were granted and admitted -/

/-- The tokens an event grants to the keys `p` for the window ending at `w`. -/
def grantedFor (p : String → Bool) (w : ℚ) : Event → ℚ
  | .granted key tokens expiresAt => if p key && expiresAt = w then tokens else 0
  | _ => 0

/-- The cost an event admits of the keys `p` in the window ending at `w`. -/
def admittedFor (p : String → Bool) (w : ℚ) : Event → ℚ
  | .decided _ key cost d => if d.allowed then if p key && d.resetAt = w then cost else 0 else 0
  | _ => 0

/-- What the coordinator granted to the keys `p` for the window ending at `w`. -/
def totalGranted (p : String → Bool) (w : ℚ) (log : List Event) : ℚ :=
  (log.map (grantedFor p w)).sum

/-- What was admitted of the keys `p` in the window ending at `w`. -/
def totalAdmitted (p : String → Bool) (w : ℚ) (log : List Event) : ℚ :=
  (log.map (admittedFor p w)).sum

/-! ### The accounts of a region -/

/-- The account movements of an event; an account is a key and a window end. -/
def posting : Event → List (Posting (String × ℚ) ℚ)
  | .granted key tokens expiresAt => [.credit (key, expiresAt) tokens]
  | .decided _ key cost d => if d.allowed then [.debit (key, d.resetAt) cost] else []
  | _ => []

/-- The grant a lease promise has resolved to. -/
def LeaseStage.grant : LeaseStage → ℚ
  | .settled grant _ => grant
  | _ => 0

/-- What account `k` is owed by a lease: its grant, until the issuing call has resumed. -/
def Lease.owedTo (k : String × ℚ) (lease : Lease) : ℚ :=
  if lease.claimant.isSome ∧ (lease.key, lease.expiresAt) = k then lease.stage.grant else 0

/-- What a map slot holds for the window ending at `w`. -/
def heldBy (slot : Option Entry) (w : ℚ) : ℚ :=
  match slot with
  | some e => if e.windowExpiresAt = w then e.balance else 0
  | none => 0

/-- What a region holds for account `k`. -/
def held (s : Engine) (k : String × ℚ) : ℚ :=
  heldBy (s.entries k.1) k.2 + (s.leases.map (Lease.owedTo k)).sum

section Held

variable {cfg : Config} {s s' : Engine} {k : String × ℚ}

theorem Sound.heldBy_nonneg (h : Sound cfg s) (key : String) (w : ℚ) :
    0 ≤ heldBy (s.entries key) w := by
  unfold heldBy
  cases he : s.entries key with
  | none => exact le_rfl
  | some e =>
    dsimp only
    split
    · exact h.balance_nonneg key e he
    · exact le_rfl

theorem Sound.owedTo_nonneg (h : Sound cfg s) {lease : Lease} (hmem : lease ∈ s.leases) :
    0 ≤ lease.owedTo k := by
  have hstage := h.stage_ok lease hmem
  unfold Lease.owedTo
  split
  · unfold LeaseStage.grant
    split
    · rename_i hst
      rw [StageOk, hst] at hstage
      exact hstage.1
    · exact le_rfl
  · exact le_rfl

theorem Sound.held_nonneg (h : Sound cfg s) : 0 ≤ held s k := by
  refine add_nonneg (h.heldBy_nonneg k.1 k.2) (List.sum_nonneg fun x hx => ?_)
  obtain ⟨lease, hmem, rfl⟩ := List.mem_map.mp hx
  exact h.owedTo_nonneg hmem

theorem held_setEntry (key : String) (e : Entry) :
    held (s.setEntry key e) k
      = held s k + if k.1 = key then heldBy (some e) k.2 - heldBy (s.entries key) k.2 else 0 := by
  unfold held
  rw [Engine.setEntry_entries, Engine.setEntry_leases, Function.update_apply]
  split
  · rename_i hkey
    rw [hkey]
    ring
  · ring

theorem held_addLease (lease : Lease) : held (s.addLease lease) k = held s k + lease.owedTo k := by
  simp only [held, Engine.addLease_entries, Engine.addLease_leases, List.map_append,
    List.sum_append, List.map_cons, List.map_nil, List.sum_cons, List.sum_nil]
  ring

theorem held_setLease {l : ℕ} {lease : Lease} (lease' : Lease) (hl : s.leases[l]? = some lease) :
    held (s.setLease l lease') k = held s k - lease.owedTo k + lease'.owedTo k := by
  obtain ⟨hlt, hget⟩ := List.getElem?_eq_some_iff.mp hl
  have hsum : ((s.leases.set l lease').map (Lease.owedTo k)).sum
      = (s.leases.map (Lease.owedTo k)).sum + (-lease.owedTo k + lease'.owedTo k) := by
    rw [List.map_set, List.sum_set', dif_pos (by simpa using hlt), List.getElem_map, hget]
  rw [held, held, Engine.setLease_entries, Engine.setLease_leases, hsum]
  ring

/-- A slot that keeps its window end changes what it holds by the change of its balance. -/
theorem heldBy_of_expires_eq (e e' : Entry) (h : e'.windowExpiresAt = e.windowExpiresAt) (w : ℚ) :
    heldBy (some e') w
      = heldBy (some e) w + if e.windowExpiresAt = w then e'.balance - e.balance else 0 := by
  simp only [heldBy, h]
  split <;> ring

theorem heldBy_opened (cfg : Config) (now r w : ℚ) :
    heldBy (some (Entry.opened cfg now r)) w = 0 := by
  show (if _ then (0 : ℚ) else 0) = 0
  exact ite_self 0

theorem owedTo_claimedBy_of_eq {lease : Lease} {id : ℕ} (h : lease.claimant = some id) :
    (lease.claimedBy id).owedTo k = 0 := by
  simp [Lease.owedTo, Lease.claimedBy, h]

theorem owedTo_claimedBy_le {lease : Lease} (id : ℕ) (h : 0 ≤ lease.owedTo k) :
    (lease.claimedBy id).owedTo k ≤ lease.owedTo k := by
  by_cases hid : lease.claimant = some id
  · rw [owedTo_claimedBy_of_eq hid]
    exact h
  · simp [Lease.owedTo, Lease.claimedBy, hid]

theorem ledger_of_reconciled {evs : List Event}
    (h : ∀ ev ∈ evs, ∃ key t w l, ev = .reconciled key t w l) : ledger posting evs = [] := by
  refine List.flatMap_eq_nil_iff.mpr fun ev hev => ?_
  obtain ⟨key, t, w, l, rfl⟩ := h ev hev
  rfl

/-- **The step rule of a region's accounts**, for a move that credits a lease only to the call that
issued it. -/
theorem held_move_le {stale : Prop} {evs : List Event} (h : Sound cfg s)
    (hL1 : cfg.regionalEscrow = false) (hmove : Move cfg False stale s evs s') (k : String × ℚ) :
    held s' k ≤ held s k + balance (ledger posting evs) k := by
  cases hmove with
  | upkeep healthy at' probe n rs _ hevs =>
    rw [ledger_of_reconciled fun ev hev => ?_]
    · simp [held]
    · obtain ⟨key, t, w, rfl⟩ := hevs ev hev
      exact ⟨key, t, w, none, rfl⟩
  | suspend id c hwait hasked hserved => simp [held]
  | ride id c e l he hpending hwait => simp [held]
  | refuse id ev hev =>
    rcases hev with ⟨err, rfl⟩ | ⟨key, cost, d, rfl, hd⟩
    · simp [held, posting]
    · simp [held, posting, hd]
  | create key now hnone =>
    rw [held_setEntry, hnone, heldBy_opened]
    simp [heldBy]
  | roll key now r e he hexpired =>
    have hold := h.heldBy_nonneg key k.2
    rw [held_setEntry, heldBy_opened]
    simp only [ledger_cons, ledger_nil, posting, List.append_nil, balance_nil, add_zero]
    split <;> linarith
  | issue id key tokens now e he =>
    have hkeep := heldBy_of_expires_eq e { e with
      pending := some s.leases.length, pendingWindowStart := e.windowStart } rfl k.2
    have howed : Lease.owedTo k ⟨key, tokens, e.windowStart, e.windowExpiresAt, now, .leasing,
        some id⟩ = 0 := by simp [Lease.owedTo, LeaseStage.grant]
    rw [held_setEntry, held_addLease, Engine.addLease_entries, he, hkeep, howed]
    simp
  | lease l lease stage evs hl hlease =>
    have hstage := h.stage_ok lease (List.mem_of_getElem? hl)
    rw [held_setLease _ hl]
    cases hlease with
    | denied hst => simp [Lease.owedTo, hst, LeaseStage.grant]
    | granted g hst hg hL1 =>
      by_cases hk : (lease.key, lease.expiresAt) = k
      · by_cases hc : lease.claimant.isSome
        · simp [Lease.owedTo, hst, LeaseStage.grant, posting, hk, hc]
        · simp [Lease.owedTo, posting, hk, hc, hg.le]
      · simp [Lease.owedTo, posting, hk]
    | grantedToEscrow g hst hg hL2 => simp [hL1] at hL2
    | refilled g hst => simp [StageOk, hst, hL1] at hstage
    | kept g hst => rcases hst with hst | hst <;> simp [StageOk, hst, hL1] at hstage
    | leasedBack g back source hst hback => simp [StageOk, hst, hL1] at hstage
  | creditEscrow id c tokens source e hc hwait htokens he hstale =>
    have hwaits := h.waits_ok id c hc
    simp [WaitsOk, hwait, hL1] at hwaits
  | creditLease id c l lease grant source e hc hwait hl hstage hgrant he hrider hstale =>
    -- the lease stops owing the grant in the step in which the balance of its window gains it
    have hclaim : lease.claimant = some id := hrider.resolve_right not_false
    have hat : LeaseAt s l c.key e.windowStart := by simpa [WaitsOk, hwait] using h.waits_ok id c hc
    obtain ⟨lease', hl', hkey, hws⟩ := hat
    obtain rfl : lease = lease' := Option.some.inj (hl.symm.trans hl')
    have hexp : lease.expiresAt = e.windowExpiresAt := by
      rw [h.lease_expires lease (List.mem_of_getElem? hl), h.entry_expires c.key e he, hws]
    have howed : lease.owedTo k = if k.1 = c.key then
        if e.windowExpiresAt = k.2 then grant else 0 else 0 := by
      obtain ⟨key, w⟩ := k
      simp only [Lease.owedTo, hclaim, Option.isSome_some, true_and, hkey, hexp, Prod.mk.injEq,
        hstage, LeaseStage.grant]
      by_cases hck : c.key = key
      · simp [hck]
      · simp [hck, Ne.symm hck]
    have hgain := heldBy_of_expires_eq e ((e.clearPending l).credit grant) rfl k.2
    rw [held_setEntry, held_setLease _ hl, owedTo_claimedBy_of_eq hclaim, howed,
      Engine.setLease_entries, he, hgain]
    simp only [Entry.credit, Entry.clearPending_balance, ledger_cons, ledger_nil, posting,
      List.append_nil, balance_nil]
    split
    · split <;> linarith
    · linarith
  | forfeit id c l ws lease grant source evs hc hwait hl hstage hevs =>
    have hle := owedTo_claimedBy_le id (h.owedTo_nonneg (k := k) (List.mem_of_getElem? hl))
    have hledger : ledger posting evs = [] := by
      rcases hevs with ⟨-, rfl⟩ | rfl | ⟨-, rfl⟩ <;> rfl
    rw [held_setLease _ hl, hledger, balance_nil]
    linarith
  | clearPending key e l he =>
    have hkeep := heldBy_of_expires_eq e (e.clearPending l) rfl k.2
    rw [held_setEntry, he, hkeep]
    simp
  | spend id key cost e he hcost =>
    have hloss := heldBy_of_expires_eq e (e.spend cost) rfl k.2
    have hfinish : held ((s.setEntry key (e.spend cost)).finish id) k
        = held (s.setEntry key (e.spend cost)) k := rfl
    obtain ⟨key', w⟩ := k
    rw [hfinish, held_setEntry, he, hloss]
    simp only [Entry.spend, admitted, ledger_cons, ledger_nil, posting, if_true, List.append_nil,
      balance_debit, Prod.mk.injEq]
    by_cases hkey : key' = key
    · subst hkey
      by_cases hw : e.windowExpiresAt = w <;> simp [hw]
    · simp [hkey, Ne.symm hkey]
  | drop key =>
    have hold := h.heldBy_nonneg key k.2
    simp only [held, Function.update_apply, ledger_cons, ledger_nil, posting, List.append_nil,
      balance_nil, add_zero]
    split
    · rename_i hkey
      rw [hkey]
      simpa [heldBy] using hold
    · exact le_rfl
  | clear =>
    have hold := h.heldBy_nonneg k.1 k.2
    simpa [held, heldBy, posting] using hold

end Held

theorem credited_ledger (p : String → Bool) (w : ℚ) (log : List Event) :
    credited (fun k => p k.1 && k.2 = w) (ledger posting log) = totalGranted p w log := by
  refine credited_ledger_eq_sum (fun ev => ?_) log
  cases ev with
  | granted key t x => simp [posting, creditOf, grantedFor]
  | decided id key cost d => cases hd : d.allowed <;> simp [posting, creditOf, grantedFor, hd]
  | _ => rfl

theorem debited_ledger (p : String → Bool) (w : ℚ) (log : List Event) :
    debited (fun k => p k.1 && k.2 = w) (ledger posting log) = totalAdmitted p w log := by
  refine debited_ledger_eq_sum (fun ev => ?_) log
  cases ev with
  | granted key t x => simp [posting, debitOf, admittedFor]
  | decided id key cost d => cases hd : d.allowed <;> simp [posting, debitOf, admittedFor, hd]
  | _ => rfl

/-! ### Each lease is credited once -/

/-- How often the grant of lease `l` was added to a balance. -/
def creditsOf (l : ℕ) (log : List Event) : ℕ :=
  log.countP fun
    | .credited _ _ _ _ (some l') => l' = l
    | _ => false

@[simp] theorem creditsOf_append (l : ℕ) (log log' : List Event) :
    creditsOf l (log ++ log') = creditsOf l log + creditsOf l log' := List.countP_append

/-- The entry of `key` was dropped. -/
def Dropped (key : String) (log : List Event) : Prop := .dropped key ∈ log ∨ .cleared ∈ log

/-- The grant of lease `l` was handed back to the coordinator, or its key's entry dropped. -/
def Forfeited (key : String) (l : ℕ) (log : List Event) : Prop :=
  (∃ t w, .reconciled key t w (some l) ∈ log) ∨ Dropped key log

theorem Dropped.append {key : String} {log : List Event} (h : Dropped key log)
    (new : List Event) : Dropped key (log ++ new) :=
  h.imp (List.mem_append_left _) (List.mem_append_left _)

theorem Forfeited.append {key : String} {l : ℕ} {log : List Event} (h : Forfeited key l log)
    (new : List Event) : Forfeited key l (log ++ new) :=
  h.imp (fun ⟨t, w, hmem⟩ => ⟨t, w, List.mem_append_left _ hmem⟩) fun hd => hd.append new

/-- What the credits of lease `l` have come to. -/
structure LeaseCredits (log : List Event) (l : ℕ) (lease : Lease) : Prop where
  /-- The issuing call has a credit left only if none was made. -/
  once : creditsOf l log + (if lease.claimant.isSome then 1 else 0) ≤ 1
  /-- Once the issuing call has resumed, a grant was credited or forfeited. -/
  resumed : lease.claimant = none → ∃ grant source, lease.stage = .settled grant source ∧
    (0 < grant → creditsOf l log = 1 ∨ Forfeited lease.key l log)

/-- Each lease is credited at most once, with its own grant. -/
structure CreditedOnce (s : Engine) (log : List Event) : Prop where
  fresh : ∀ l, s.leases.length ≤ l → creditsOf l log = 0
  lease : ∀ l lease, s.leases[l]? = some lease → LeaseCredits log l lease
  amount : ∀ key tokens source w l, .credited key tokens source w (some l) ∈ log →
    ∃ lease, s.leases[l]? = some lease ∧ lease.key = key ∧ lease.stage = .settled tokens source
  entry : ∀ lease ∈ s.leases, (s.entries lease.key).isSome ∨ Dropped lease.key log

theorem CreditedOnce.new : CreditedOnce .new [] where
  fresh _ _ := rfl
  lease := by rintro l lease ⟨⟩
  amount := by rintro key tokens source w l ⟨⟩
  entry := by rintro lease ⟨⟩

section Credits

variable {cfg : Config} {s s' : Engine} {log : List Event}

theorem LeaseCredits.append {l : ℕ} {lease : Lease} (h : LeaseCredits log l lease)
    {new : List Event} (hnew : creditsOf l new = 0) : LeaseCredits (log ++ new) l lease := by
  refine ⟨by simpa [hnew] using h.once, fun hnone => ?_⟩
  obtain ⟨grant, source, hst, hdone⟩ := h.resumed hnone
  refine ⟨grant, source, hst, fun hpos => ?_⟩
  rcases hdone hpos with hone | hforfeit
  · exact .inl (by simpa [hnew] using hone)
  · exact .inr (hforfeit.append new)

/-- No lease changes and none is credited. -/
theorem CreditedOnce.keep (h : CreditedOnce s log) {new : List Event}
    (hleases : s'.leases = s.leases)
    (hentries : ∀ key, (s.entries key).isSome → (s'.entries key).isSome ∨ Dropped key new)
    (hnew : ∀ key t source w l, .credited key t source w (some l) ∉ new) :
    CreditedOnce s' (log ++ new) := by
  have hzero : ∀ l, creditsOf l new = 0 := by
    intro l
    refine List.countP_eq_zero.mpr fun ev hev => ?_
    split
    · rename_i key t source w l'
      exact absurd hev (hnew key t source w l')
    · simp
  constructor
  · intro l hl
    rw [hleases] at hl
    simp [h.fresh l hl, hzero]
  · intro l lease hl
    rw [hleases] at hl
    exact (h.lease l lease hl).append (hzero l)
  · intro key tokens source w l hmem
    rw [hleases]
    rcases List.mem_append.mp hmem with hold | hev
    · exact h.amount key tokens source w l hold
    · exact absurd hev (hnew _ _ _ _ _)
  · intro lease hmem
    rw [hleases] at hmem
    rcases h.entry lease hmem with hsome | hdrop
    · exact (hentries _ hsome).imp id fun hd =>
        hd.imp (List.mem_append_right _) (List.mem_append_right _)
    · exact .inr (hdrop.append new)

/-- Only lease `l` changes, and only it may be credited. -/
theorem CreditedOnce.setLease (h : CreditedOnce s log) {l : ℕ} {lease lease' : Lease}
    {new : List Event} (hl : s.leases[l]? = some lease) (hkey : lease'.key = lease.key)
    (hcredits : LeaseCredits (log ++ new) l lease') (hother : ∀ l' ≠ l, creditsOf l' new = 0)
    (hamount : ∀ key t source w l', .credited key t source w (some l') ∈ log ++ new → l' = l →
      key = lease.key ∧ lease'.stage = .settled t source) :
    CreditedOnce (s.setLease l lease') (log ++ new) := by
  obtain ⟨hlt, -⟩ := List.getElem?_eq_some_iff.mp hl
  constructor
  · intro l' hl'
    rw [Engine.setLease_leases, List.length_set] at hl'
    rw [creditsOf_append, h.fresh l' hl', hother l' (by omega)]
  · intro l' lease₁ hl'
    by_cases hll : l' = l
    · subst hll
      rw [Engine.setLease_leases, List.getElem?_set_self hlt] at hl'
      obtain rfl := Option.some.inj hl'
      exact hcredits
    · rw [Engine.setLease_leases, List.getElem?_set_ne (Ne.symm hll)] at hl'
      exact (h.lease l' lease₁ hl').append (hother l' hll)
  · intro key t source w l' hmem
    by_cases hll : l' = l
    · subst hll
      obtain ⟨hk, hst⟩ := hamount key t source w l' hmem rfl
      refine ⟨lease', ?_, hkey.trans hk.symm, hst⟩
      rw [Engine.setLease_leases, List.getElem?_set_self hlt]
    · rw [Engine.setLease_leases, List.getElem?_set_ne (Ne.symm hll)]
      rcases List.mem_append.mp hmem with hold | hev
      · exact h.amount key t source w l' hold
      · have hpos : 0 < creditsOf l' new := List.countP_pos_iff.mpr ⟨_, hev, by simp⟩
        exact absurd (hother l' hll) hpos.ne'
  · intro lease₁ hmem
    have hentry : ∀ lease₂ ∈ s.leases, lease₁.key = lease₂.key →
        (s.entries lease₁.key).isSome ∨ Dropped lease₁.key (log ++ new) := by
      intro lease₂ hmem₂ hk
      rw [hk]
      exact (h.entry lease₂ hmem₂).imp id fun hd => hd.append new
    rcases List.mem_or_eq_of_mem_set hmem with hold | rfl
    · exact hentry lease₁ hold rfl
    · exact hentry lease (List.mem_of_getElem? hl) hkey

theorem isSome_setEntry (s : Engine) (key key' : String) (e : Entry)
    (h : (s.entries key').isSome) : ((s.setEntry key e).entries key').isSome := by
  rw [Engine.setEntry_entries, Function.update_apply]
  split
  · rfl
  · exact h

/-- **Each lease stays credited at most once**, when only its issuing call may credit it. -/
theorem CreditedOnce.move {stale : Prop} {evs : List Event} (hs : Sound cfg s)
    (h : CreditedOnce s log) (hmove : Move cfg False stale s evs s') :
    CreditedOnce s' (log ++ evs) := by
  cases hmove with
  | upkeep healthy at' probe n rs _ hevs =>
    refine h.keep rfl (fun _ => .inl) fun key t source w l hmem => ?_
    obtain ⟨_, _, _, heq⟩ := hevs _ hmem
    cases heq
  | suspend id c hwait hasked hserved => exact h.keep rfl (fun _ => .inl) (by simp)
  | ride id c e l he hpending hwait => exact h.keep rfl (fun _ => .inl) (by simp)
  | refuse id ev hev =>
    refine h.keep rfl (fun _ => .inl) fun key t source w l hmem => ?_
    rcases hev with ⟨err, rfl⟩ | ⟨key, cost, d, rfl, hd⟩ <;> simp at hmem
  | create key now hnone =>
    exact h.keep rfl (fun key' hk => .inl (isSome_setEntry _ _ _ _ hk)) (by simp)
  | roll key now r e he hexpired =>
    exact h.keep rfl (fun key' hk => .inl (isSome_setEntry _ _ _ _ hk)) (by simp)
  | issue id key tokens now e he =>
    rw [List.append_nil]
    constructor
    · intro l hl
      refine h.fresh l (Nat.le_of_succ_le ?_)
      simpa using hl
    · intro l lease hl
      rw [Engine.setEntry_leases, Engine.addLease_leases] at hl
      rcases lt_or_ge l s.leases.length with hlt | hge
      · rw [List.getElem?_append_left hlt] at hl
        exact h.lease l lease hl
      · rw [List.getElem?_append_right hge, List.getElem?_singleton] at hl
        split at hl
        · obtain rfl := Option.some.inj hl
          exact ⟨by simp [h.fresh l hge], by simp⟩
        · cases hl
    · intro key' t source w l hmem
      obtain ⟨lease, hl, hrest⟩ := h.amount key' t source w l hmem
      refine ⟨lease, ?_, hrest⟩
      rw [Engine.setEntry_leases, Engine.addLease_leases,
        List.getElem?_append_left (List.getElem?_eq_some_iff.mp hl).1]
      exact hl
    · intro lease hmem
      rcases List.mem_append.mp hmem with hold | hnew
      · exact (h.entry lease hold).imp (isSome_setEntry _ _ _ _) fun hd => hd
      · rw [List.mem_singleton.mp hnew]
        simp
  | lease l lease stage evs hl hlease =>
    obtain ⟨hunsettled, hnew⟩ : (∀ g w, lease.stage ≠ .settled g w) ∧
        ∀ key t source w l', .credited key t source w (some l') ∉ evs := by
      cases hlease with
      | kept g hst => rcases hst with hst | hst <;> simp [hst]
      | denied hst => simp [hst]
      | granted g hst hg hL1 => simp [hst]
      | grantedToEscrow g hst hg hL2 => simp [hst]
      | refilled g hst => simp [hst]
      | leasedBack g back source hst hback => simp [hst]
    have hzero : ∀ l', creditsOf l' evs = 0 := by
      intro l'
      refine List.countP_eq_zero.mpr fun ev hev => ?_
      split
      · rename_i key t source w l''
        exact absurd hev (hnew key t source w l'')
      · simp
    have hcredits := h.lease l lease hl
    refine h.setLease hl rfl ⟨?_, ?_⟩ (fun l' _ => hzero l') ?_
    · simpa [hzero] using hcredits.once
    · intro hnone
      obtain ⟨g, w, hst, -⟩ := hcredits.resumed hnone
      exact absurd hst (hunsettled g w)
    · rintro key t source w l' hmem rfl
      rcases List.mem_append.mp hmem with hold | hev
      · obtain ⟨lease', hl', -, hst⟩ := h.amount key t source w l' hold
        obtain rfl : lease = lease' := Option.some.inj (hl.symm.trans hl')
        exact absurd hst (hunsettled t source)
      · exact absurd hev (hnew _ _ _ _ _)
  | creditEscrow id c tokens source e hc hwait htokens he hstale =>
    exact h.keep rfl (fun key' hk => .inl (isSome_setEntry _ _ _ _ hk)) (by simp)
  | creditLease id c l lease grant source e hc hwait hl hstage hgrant he hrider hstale =>
    have hclaim : lease.claimant = some id := hrider.resolve_right not_false
    have hat : LeaseAt s l c.key e.windowStart := by
      simpa [WaitsOk, hwait] using hs.waits_ok id c hc
    obtain ⟨lease', hl', hkey, -⟩ := hat
    obtain rfl : lease = lease' := Option.some.inj (hl.symm.trans hl')
    have honce := (h.lease l lease hl).once
    rw [hclaim, Option.isSome_some, if_pos rfl] at honce
    have hclaimed : CreditedOnce (s.setLease l (lease.claimedBy id))
        (log ++ [.credited c.key grant source e.windowStart (some l)]) := by
      have hone :
          creditsOf l (log ++ [.credited c.key grant source e.windowStart (some l)]) = 1 := by
        rw [creditsOf_append, show creditsOf l log = 0 by omega]
        simp [creditsOf]
      refine h.setLease hl rfl ⟨?_, fun _ => ⟨grant, source, hstage, fun _ => .inl hone⟩⟩ ?_ ?_
      · simp [hone, Lease.claimedBy, hclaim]
      · intro l' hne
        simp [creditsOf, Ne.symm hne]
      · rintro key t source' w l' hmem rfl
        rcases List.mem_append.mp hmem with hold | hev
        · obtain ⟨lease', hl', hk, hst⟩ := h.amount key t source' w l' hold
          obtain rfl : lease = lease' := Option.some.inj (hl.symm.trans hl')
          exact ⟨hk.symm, hst⟩
        · obtain ⟨rfl, rfl, rfl, -⟩ := Event.credited.inj (List.mem_singleton.mp hev)
          exact ⟨hkey.symm, hstage⟩
    rw [← List.append_nil (log ++ _)]
    exact hclaimed.keep rfl (fun key' hk => .inl (isSome_setEntry _ _ _ _ hk)) (by simp)
  | forfeit id c l ws lease grant source evs hc hwait hl hstage hevs =>
    have hat : LeaseAt s l c.key ws := by simpa [WaitsOk, hwait] using hs.waits_ok id c hc
    obtain ⟨lease', hl', hkey, -⟩ := hat
    obtain rfl : lease = lease' := Option.some.inj (hl.symm.trans hl')
    have hcredits := h.lease l lease hl
    have hnew : ∀ key t source w l', .credited key t source w (some l') ∉ evs := by
      rcases hevs with ⟨-, rfl⟩ | rfl | ⟨-, rfl⟩ <;> simp
    have hzero : ∀ l', creditsOf l' evs = 0 := by
      rcases hevs with ⟨-, rfl⟩ | rfl | ⟨-, rfl⟩ <;> simp [creditsOf]
    have hforfeit : 0 < grant → Forfeited lease.key l (log ++ evs) := by
      intro hpos
      rcases hevs with ⟨hle, -⟩ | rfl | ⟨hnone, rfl⟩
      · exact absurd hpos (not_lt.mpr hle)
      · exact .inl ⟨grant, ws, by simp [hkey]⟩
      · rw [List.append_nil]
        refine .inr ((h.entry lease (List.mem_of_getElem? hl)).resolve_left ?_)
        simp [hkey, hnone]
    refine h.setLease hl rfl ⟨?_, fun _ => ⟨grant, source, hstage, fun hpos =>
      .inr (hforfeit hpos)⟩⟩ (fun l' _ => hzero l') ?_
    · have honce := hcredits.once
      rw [creditsOf_append, hzero, Nat.add_zero]
      by_cases hid : lease.claimant = some id
      · simp only [Lease.claimedBy, hid, if_true, Option.isSome_none, Bool.false_eq_true, if_false]
        omega
      · simpa [Lease.claimedBy, hid] using honce
    · rintro key t source' w l' hmem rfl
      rcases List.mem_append.mp hmem with hold | hev
      · obtain ⟨lease', hl', hk, hst⟩ := h.amount key t source' w l' hold
        obtain rfl : lease = lease' := Option.some.inj (hl.symm.trans hl')
        exact ⟨hk.symm, hst⟩
      · exact absurd hev (hnew _ _ _ _ _)
  | clearPending key e l he =>
    exact h.keep rfl (fun key' hk => .inl (isSome_setEntry _ _ _ _ hk)) (by simp)
  | spend id key cost e he hcost =>
    exact h.keep rfl (fun key' hk => .inl (isSome_setEntry _ _ _ _ hk)) (by simp)
  | drop key =>
    refine h.keep rfl (fun key' hk => ?_) (by simp)
    by_cases hkey : key' = key
    · subst hkey
      exact .inr (.inl List.mem_cons_self)
    · exact .inl (by simpa [Function.update_of_ne hkey] using hk)
  | clear => exact h.keep rfl (fun key' _ => .inr (.inr List.mem_cons_self)) (by simp)

end Credits

/-! ### The regions together -/

/-- The step does not have a call credit another call's lease. -/
def IssuerCredits {ι : Type} (s : Parties ι Escrow Engine) (a : ι × Act) : Prop :=
  creditsAsRider (s.party a.1) a.2 = false

instance {ι : Type} (s : Parties ι Escrow Engine) (a : ι × Act) : Decidable (IssuerCredits s a) :=
  inferInstanceAs (Decidable (_ = false))

/-- What a region keeps throughout a run in which only issuing calls credit their leases. -/
structure Accounted (cfg : Config) (s : Engine) (log : List Event) : Prop where
  sound : Sound cfg s
  backed : Backed (held s) (ledger posting log)
  creditedOnce : CreditedOnce s log

theorem Accounted.new (cfg : Config) : Accounted cfg .new [] where
  sound := .new cfg
  backed := .nil fun k => by simp [held, heldBy, Engine.new]
  creditedOnce := .new

theorem Accounted.move {cfg : Config} {stale : Prop} {s s' : Engine} {log evs : List Event}
    (hL1 : cfg.regionalEscrow = false) (h : Accounted cfg s log)
    (hmove : Move cfg False stale s evs s') : Accounted cfg s' (log ++ evs) where
  sound := h.sound.move hmove
  backed := by
    rw [ledger_append]
    exact h.backed.append (held_move_le h.sound hL1 hmove)
  creditedOnce := h.creditedOnce.move h.sound hmove

section Fleet

variable {ι : Type} [DecidableEq ι] {cfg : ι → Config} {windowMs : ℚ}

theorem accounted_of_run (hL1 : ∀ i, (cfg i).regionalEscrow = false) {log : List (ι × Event)}
    {s : Parties ι Escrow Engine} (hrun : (fleet cfg).Run IssuerCredits (start ι windowMs) log s)
    (i : ι) : Accounted (cfg i) (s.party i) (Parties.outputsOf i log) := by
  refine Parties.run_party (I := fun i => Accounted (cfg i)) (fun i => .new (cfg i)) ?_ hrun i
  intro s i a l2 s' evs log hacc hok hstep
  have hmoves := step_moves hstep
  rw [show creditsAsRider (s.party i) a = false from hok] at hmoves
  simp only [Bool.false_eq_true] at hmoves
  exact Chain.invariant (I := Accounted (cfg i)) (fun _ _ _ _ h hm => h.move (hL1 i) hm) hmoves hacc

/-- **The regions admit no more than they were granted.** -/
theorem totalAdmitted_le_totalGranted (hL1 : ∀ i, (cfg i).regionalEscrow = false)
    {log : List (ι × Event)} {s : Parties ι Escrow Engine}
    (hrun : (fleet cfg).Run IssuerCredits (start ι windowMs) log s) (p : String → Bool) (w : ℚ) :
    totalAdmitted p w (log.map Prod.snd) ≤ totalGranted p w (log.map Prod.snd) := by
  rw [← credited_ledger, ← debited_ledger, ← credited_partyLedger, ← debited_partyLedger]
  refine debited_le_of_forall_party (fun i k => ?_) _
  have hacc := accounted_of_run hL1 hrun i
  exact hacc.sound.held_nonneg.trans (hacc.backed k)

end Fleet

/-! ### The condition is needed -/

/-- Regions without an escrow of their own, leasing in twos from a budget of two a second. -/
def pairs : Config where
  limit := 2
  windowMs := 1000
  batch := 2
  regionalEscrow := false
  regionalOnly := false
  probes := false
  healthCheckMs := 1000
  keyPrefix := none
  windowMs_pos := second_pos
  one_le_batch := one_le_pair
  one_le_healthCheckMs := one_le_second

/-- Two regions lease and admit, one of them serving a second check from its balance. -/
def twoRegions : List (Bool × Act) :=
  [(true, .check 0 "k" 1 0), (false, .check 0 "k" 1 10), (true, .coordinator 0 (some 2)),
    (false, .coordinator 0 (some 1)), (false, .resume 0 20), (true, .resume 0 30),
    (true, .check 1 "k" 1 40)]

/-- Two checks share one lease of two tokens, and both add it to the balance. -/
def sharedLease : List (Unit × Act) :=
  [((), .check 0 "k" 1 0), ((), .check 1 "k" 1 0), ((), .coordinator 0 (some 2)),
    ((), .resume 0 0), ((), .resume 1 0), ((), .check 2 "k" 1 0), ((), .check 3 "k" 1 0)]

end ThrottleKit.WindowCoupled
