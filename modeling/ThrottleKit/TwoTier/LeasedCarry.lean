import ThrottleKit.TwoTier.LeasedAccounts

/-!
# What leased credits carry across a boundary

Without `windowCoupled` the credits of a node outlive the window they were leased in. With a whole
batch `B`, leases on demand only and unit costs, a node that has no lease outstanding holds at most
`B - 1` credits of a key: the lease added `B` to none, and the check that issued it has taken one.
So if no lease is outstanding when a node enters a window, the node admits at most `B - 1` more in
it than its leases were charged to it, and `N` nodes admit at most `N * (B - 1)` over the limit.

An entry that is dropped while its lease is in flight lets the node hold several leases of the key
at once, and the bound fails by as much as the window allows (`dropped_lease_exceeds_carry`).

## Main definitions

* `UnitLeasing` — the configuration the bound is stated for
* `Banked` — what bounds the credits of a node
* `CarryStep` — the conditions on a step

## Main results

* `Banked.move`, `carried_move_le` — every move keeps it, and the accounts
* `admitted_le_limit_add_carry` — the bound
-/

namespace ThrottleKit.Leased

open Machine Purse Rounding

variable {Sizer : Type}

/-- Credits carry over, leases are on demand and of a whole batch `B`. -/
structure UnitLeasing (cfg : Config Sizer) (B : ℕ) : Prop where
  carries : cfg.windowCoupled = false
  lowWater : cfg.lowWater = 0
  fixed : cfg.makeSizer = none
  batch : cfg.batch = B

theorem UnitLeasing.one_le {cfg : Config Sizer} {B : ℕ} (h : UnitLeasing cfg B) : 1 ≤ B := by
  have hbatch := cfg.one_le_batch
  rw [h.batch] at hbatch
  exact_mod_cast hbatch

/-- Lease `l` is outstanding: it is in flight, or granted and the call that issued it has yet to
resume. -/
def Lease.outstanding (calls : ℕ → Option Call) (l : ℕ) (lease : Lease) : Bool :=
  match lease.stage with
  | .requested | .replied _ => true
  | .delivered d =>
    d.allowed && match calls lease.issuer with
      | some c => c.lease = l
      | none => false
  | .failed => false

/-- Some lease is outstanding. -/
def outstanding (leases : List Lease) (calls : ℕ → Option Call) : Bool :=
  leases.zipIdx.any fun r => r.1.outstanding calls r.2

/-- Readings do not go back, and go to another window only with no lease outstanding. -/
def calm (win : FixedWindow.Config) : Reading := fun clock leases calls now =>
  clock ≤ now ∧ (startOf win.windowMs clock ≠ startOf win.windowMs now →
    outstanding leases calls = false)

/-- The call that issued lease `l` waits on it. -/
def IssuerWaits (s : Node Sizer) (l : ℕ) (lease : Lease) : Prop :=
  ∃ c, s.calls lease.issuer = some c ∧ c.lease = l

/-- A granted lease of `key` has yet to be picked up by the call that issued it. -/
def Owed (s : Node Sizer) (key : String) : Prop :=
  ∃ (l : ℕ) (lease : Lease) (d : Decision), s.leases[l]? = some lease ∧ lease.key = key ∧
    lease.stage = .delivered d ∧ d.allowed = true ∧ IssuerWaits s l lease

/-- What holds of an entry: its credits are whole, at most a batch, and a whole batch only while
the check that leased it has yet to resume. -/
structure EntryBanked (B : ℕ) (s : Node Sizer) (key : String) (e : Entry Sizer) : Prop where
  whole : ∃ n : ℕ, e.credits = n
  le_batch : e.credits ≤ B
  fixed : e.sizer = none
  owed : (B : ℚ) - 1 < e.credits → Owed s key

/-- What holds of a lease in flight: it is of the window of the clock, its key's entry waits for it
without credits, and so does the call that issued it. -/
structure FlightOk (win : FixedWindow.Config) (s : Node Sizer) (l : ℕ) (lease : Lease) : Prop where
  window : startOf win.windowMs lease.now = startOf win.windowMs s.clock
  entry : ∃ e, s.entries.lookup lease.key = some e ∧ e.pending = some l ∧ e.credits = 0
  issuer : IssuerWaits s l lease

/-- What bounds the credits of a node. -/
structure Banked (win : FixedWindow.Config) (B : ℕ) (s : Node Sizer) : Prop where
  entry : ∀ key e, s.entries.lookup key = some e → EntryBanked B s key e
  pending : ∀ key e l, s.entries.lookup key = some e → e.pending = some l →
    ∃ lease, s.leases[l]? = some lease ∧ lease.key = key
  flight : ∀ l lease, s.leases[l]? = some lease → lease.stage.settled = false →
    FlightOk win s l lease
  lease : ∀ lease ∈ s.leases, lease.amount = B ∧ lease.refill = false
  call : ∀ id c, s.calls id = some c → c.cost = 1 ∧
    ∃ lease, s.leases[c.lease]? = some lease ∧ lease.key = c.key

theorem Banked.new (win : FixedWindow.Config) (B : ℕ) : Banked win B (.new : Node Sizer) where
  entry := by rintro key e ⟨⟩
  pending := by rintro key e l ⟨⟩
  flight := by rintro l lease ⟨⟩
  lease := by rintro lease ⟨⟩
  call := by rintro id c ⟨⟩

theorem not_outstanding {leases : List Lease} {calls : ℕ → Option Call}
    (h : outstanding leases calls = false) {l : ℕ} {lease : Lease} (hl : leases[l]? = some lease) :
    lease.outstanding calls l = false := by
  have hmem : (lease, l) ∈ leases.zipIdx := List.mem_zipIdx_iff_getElem?.mpr hl
  simpa using List.any_eq_false.mp h (lease, l) hmem

theorem settled_of_not_outstanding {lease : Lease} {calls : ℕ → Option Call} {l : ℕ}
    (h : lease.outstanding calls l = false) : lease.stage.settled = true := by
  unfold Lease.outstanding at h
  split at h
  · cases h
  · cases h
  · rename_i d hstage
    rw [hstage, Stage.settled]
  · rename_i hstage
    rw [hstage, Stage.settled]

theorem not_owed {s : Node Sizer} (h : outstanding s.leases s.calls = false) (key : String) :
    ¬ Owed s key := by
  rintro ⟨l, lease, d, hl, -, hstage, hallowed, c, hc, hcl⟩
  have hnone := not_outstanding h hl
  simp [Lease.outstanding, hstage, hallowed, hc, hcl] at hnone

theorem getElem?_concat_cases {leases : List Lease} {lease lease₀ : Lease} {l : ℕ}
    (h : (leases ++ [lease])[l]? = some lease₀) :
    leases[l]? = some lease₀ ∨ l = leases.length ∧ lease₀ = lease := by
  rcases lt_or_ge l leases.length with hlt | hge
  · rw [List.getElem?_append_left hlt] at h
    exact .inl h
  · rw [List.getElem?_append_right hge, List.getElem?_singleton] at h
    split at h
    · exact .inr ⟨by omega, (Option.some.inj h).symm⟩
    · cases h

section Preservation

variable {win : FixedWindow.Config} {B : ℕ} {s s' : Node Sizer} {key : String} {e e' : Entry Sizer}

theorem EntryBanked.nonneg (h : EntryBanked B s key e) : 0 ≤ e.credits := by
  obtain ⟨n, hn⟩ := h.whole
  rw [hn]
  exact Nat.cast_nonneg n

/-- Whole credits short of one are none. -/
theorem EntryBanked.eq_zero_of_lt_one (h : EntryBanked B s key e) (hlt : e.credits < 1) :
    e.credits = 0 := by
  obtain ⟨n, hn⟩ := h.whole
  rw [hn] at hlt ⊢
  have hn0 : n < 1 := by exact_mod_cast hlt
  rw [show n = 0 by omega, Nat.cast_zero]

/-- Without a lease owed, an entry holds at most `B - 1`. -/
theorem EntryBanked.le_carry (h : EntryBanked B s key e) (hnot : ¬ Owed s key) :
    e.credits ≤ B - 1 := not_lt.mp fun hlt => hnot (h.owed hlt)

theorem EntryBanked.of_same (h : EntryBanked B s key e) (hcredits : e'.credits = e.credits)
    (hsizer : e.sizer = none → e'.sizer = none) : EntryBanked B s key e' where
  whole := hcredits ▸ h.whole
  le_batch := hcredits ▸ h.le_batch
  fixed := hsizer h.fixed
  owed hlt := h.owed (hcredits ▸ hlt)

/-- An entry at most `B - 1` needs no lease owed. -/
theorem EntryBanked.of_le_carry {n : ℕ} (hcredits : e.credits = n) (hn : n + 1 ≤ B)
    (hsizer : e.sizer = none) : EntryBanked B s key e := by
  have hcast : (n : ℚ) + 1 ≤ B := by exact_mod_cast hn
  refine ⟨⟨n, hcredits⟩, by linarith, hsizer, fun hlt => ?_⟩
  linarith

/-- An entry keeps what it has while every owed lease stays owed. -/
theorem EntryBanked.mono (h : EntryBanked B s key e) (howed : Owed s key → Owed s' key) :
    EntryBanked B s' key e :=
  ⟨h.whole, h.le_batch, h.fixed, fun hlt => howed (h.owed hlt)⟩

theorem Banked.setEntry (h : Banked win B s) (he : EntryBanked B s key e')
    (hpending : ∀ l, e'.pending = some l → ∃ lease, s.leases[l]? = some lease ∧ lease.key = key)
    (hflight : ∀ l lease, s.leases[l]? = some lease → lease.stage.settled = false →
      lease.key = key → e'.pending = some l ∧ e'.credits = 0) :
    Banked win B (s.setEntry key e') where
  entry key' e₁ he₁ := by
    rw [Node.setEntry_entries, OrderedMap.lookup_set] at he₁
    split at he₁
    · rename_i hkey
      obtain rfl := Option.some.inj he₁
      exact hkey ▸ he.mono fun ho => ho
    · exact (h.entry key' e₁ he₁).mono fun ho => ho
  pending key' e₁ l he₁ hl := by
    rw [Node.setEntry_entries, OrderedMap.lookup_set] at he₁
    split at he₁
    · rename_i hkey
      obtain rfl := Option.some.inj he₁
      exact hkey ▸ hpending l hl
    · exact h.pending key' e₁ l he₁ hl
  flight l lease hl hfl := by
    have hok := h.flight l lease hl hfl
    refine ⟨hok.window, ?_, hok.issuer⟩
    rw [Node.setEntry_entries, OrderedMap.lookup_set]
    by_cases hkey : key = lease.key
    · rw [if_pos hkey]
      obtain ⟨hp, hc⟩ := hflight l lease hl hfl hkey.symm
      exact ⟨e', rfl, hp, hc⟩
    · rw [if_neg hkey]
      exact hok.entry
  lease := h.lease
  call := h.call

/-- Writing an entry again with its credits, and its pending lease if that is in flight. -/
theorem Banked.setEntry_same (h : Banked win B s) (he : s.entries.lookup key = some e)
    (hcredits : e'.credits = e.credits) (hsizer : e.sizer = none → e'.sizer = none)
    (hpending : ∀ l, e'.pending = some l → e.pending = some l)
    (hflight : ∀ l lease, s.leases[l]? = some lease → lease.stage.settled = false →
      e.pending = some l → e'.pending = some l) : Banked win B (s.setEntry key e') := by
  refine h.setEntry ((h.entry key e he).of_same hcredits hsizer)
    (fun l hl => h.pending key e l he (hpending l hl)) fun l lease hl hfl hkey => ?_
  obtain ⟨e₁, he₁, hp, hc⟩ := (h.flight l lease hl hfl).entry
  obtain rfl : e = e₁ := Option.some.inj (he.symm.trans (hkey ▸ he₁))
  exact ⟨hflight l lease hl hfl hp, hcredits.trans hc⟩

theorem Banked.retain (h : Banked win B s) (keep : String → Entry Sizer → Bool)
    (hkeep : ∀ key e, s.entries.lookup key = some e → keep key e = false → Unleased s key) :
    Banked win B (s.retain keep) where
  entry key e he := by
    rw [Node.retain_entries, OrderedMap.lookup_filter, Option.filter_eq_some_iff] at he
    exact (h.entry key e he.1).mono fun ho => ho
  pending key e l he := by
    rw [Node.retain_entries, OrderedMap.lookup_filter, Option.filter_eq_some_iff] at he
    exact h.pending key e l he.1
  flight l lease hl hfl := by
    have hok := h.flight l lease hl hfl
    obtain ⟨e, he, hp, hc⟩ := hok.entry
    refine ⟨hok.window, ⟨e, ?_, hp, hc⟩, hok.issuer⟩
    rw [Node.retain_entries, OrderedMap.lookup_filter, he, Option.filter_some]
    by_cases hk : keep lease.key e = true
    · rw [if_pos hk]
    · have hsettled := hkeep lease.key e he (by simpa using hk) lease (List.mem_of_getElem? hl) rfl
      simp [hsettled] at hfl
  lease := h.lease
  call := h.call

theorem Banked.tick (h : Banked win B s) {now : ℚ}
    (hcalm : calm win s.clock s.leases s.calls now) : Banked win B (s.tick now) where
  entry key e he := (h.entry key e he).mono fun ho => ho
  pending := h.pending
  flight l lease hl hfl := by
    have hok := h.flight l lease hl hfl
    refine ⟨?_, hok.entry, hok.issuer⟩
    by_cases hwin : startOf win.windowMs s.clock = startOf win.windowMs now
    · exact hok.window.trans hwin
    · have hsettled := settled_of_not_outstanding (not_outstanding (hcalm.2 hwin) hl)
      simp [hsettled] at hfl
  lease := h.lease
  call := h.call

/-- A lease moves on, in flight only if it was, and granted if it was. -/
theorem Banked.setLease (h : Banked win B s) {l : ℕ} {lease lease' : Lease}
    (hl : s.leases[l]? = some lease) (hkey : lease'.key = lease.key)
    (hnow : lease'.now = lease.now) (hamount : lease'.amount = lease.amount)
    (hrefill : lease'.refill = lease.refill) (hissuer : lease'.issuer = lease.issuer)
    (hsettled : lease'.stage.settled = false → lease.stage.settled = false)
    (hgranted : ∀ d, lease.stage = .delivered d → lease'.stage = .delivered d) :
    Banked win B (s.setLease l lease') := by
  obtain ⟨hlt, -⟩ := List.getElem?_eq_some_iff.mp hl
  have hback : ∀ (l₁ : ℕ) (lease₁ : Lease), (s.setLease l lease').leases[l₁]? = some lease₁ →
      ∃ lease₀ : Lease, s.leases[l₁]? = some lease₀ ∧ lease₁.key = lease₀.key ∧
        lease₁.now = lease₀.now ∧ lease₁.issuer = lease₀.issuer ∧
        (lease₁.stage.settled = false → lease₀.stage.settled = false) := by
    intro l₁ lease₁ hl₁
    by_cases hll : l = l₁
    · subst hll
      rw [Node.setLease_leases, List.getElem?_set_self hlt] at hl₁
      obtain rfl := Option.some.inj hl₁
      exact ⟨lease, hl, hkey, hnow, hissuer, hsettled⟩
    · rw [Node.setLease_leases, List.getElem?_set_ne hll] at hl₁
      exact ⟨lease₁, hl₁, rfl, rfl, rfl, fun hs => hs⟩
  have hforth : ∀ (l₁ : ℕ) (lease₀ : Lease), s.leases[l₁]? = some lease₀ →
      ∃ lease₁ : Lease, (s.setLease l lease').leases[l₁]? = some lease₁ ∧
        lease₁.key = lease₀.key ∧ lease₁.issuer = lease₀.issuer ∧
        ∀ d, lease₀.stage = .delivered d → lease₁.stage = .delivered d := by
    intro l₁ lease₀ hl₁
    by_cases hll : l = l₁
    · subst hll
      obtain rfl : lease = lease₀ := Option.some.inj (hl.symm.trans hl₁)
      exact ⟨lease', by rw [Node.setLease_leases, List.getElem?_set_self hlt], hkey, hissuer,
        hgranted⟩
    · exact ⟨lease₀, by rw [Node.setLease_leases, List.getElem?_set_ne hll, hl₁], rfl, rfl,
        fun d hd => hd⟩
  constructor
  · intro key e he
    refine (h.entry key e he).mono ?_
    rintro ⟨l₁, lease₀, d, hl₁, hk, hstage, hallowed, c, hc, hcl⟩
    obtain ⟨lease₁, hl₁', hk', hi', hstage'⟩ := hforth l₁ lease₀ hl₁
    exact ⟨l₁, lease₁, d, hl₁', hk'.trans hk, hstage' d hstage, hallowed, c, by rw [hi']; exact hc,
      hcl⟩
  · intro key e l₁ he hp
    obtain ⟨lease₀, hl₀, hk⟩ := h.pending key e l₁ he hp
    obtain ⟨lease₁, hl₁, hk', -⟩ := hforth l₁ lease₀ hl₀
    exact ⟨lease₁, hl₁, hk'.trans hk⟩
  · intro l₁ lease₁ hl₁ hfl
    obtain ⟨lease₀, hl₀, hk, hn, hi, hs⟩ := hback l₁ lease₁ hl₁
    have hok := h.flight l₁ lease₀ hl₀ (hs hfl)
    obtain ⟨c, hc, hcl⟩ := hok.issuer
    exact ⟨hn ▸ hok.window, hk ▸ hok.entry, c, by rw [hi]; exact hc, hcl⟩
  · intro lease₁ hmem
    rcases List.mem_or_eq_of_mem_set hmem with hold | rfl
    · exact h.lease lease₁ hold
    · obtain ⟨ha, hr⟩ := h.lease lease (List.mem_of_getElem? hl)
      exact ⟨hamount.trans ha, hrefill.trans hr⟩
  · intro id c hc
    obtain ⟨hcost, lease₀, hl₀, hk⟩ := h.call id c hc
    obtain ⟨lease₁, hl₁, hk', -⟩ := hforth c.lease lease₀ hl₀
    exact ⟨hcost, lease₁, hl₁, hk'.trans hk⟩

/-- Call `id` may leave the lease it waits on: the lease has settled, and no whole batch is owed to
the call. -/
def MayLeave (B : ℕ) (s : Node Sizer) (id : ℕ) : Prop :=
  ∀ c, s.calls id = some c → ∃ lease, s.leases[c.lease]? = some lease ∧
    lease.stage.settled = true ∧
    (lease.stage = .failed ∨ ∀ e, s.entries.lookup c.key = some e → e.credits ≤ B - 1)

theorem Banked.calls (h : Banked win B s) {id : ℕ} {calls : ℕ → Option Call}
    (hother : ∀ id' ≠ id, calls id' = s.calls id') (hleave : MayLeave B s id)
    (hnew : ∀ c, calls id = some c → c.cost = 1 ∧
      ∃ lease, s.leases[c.lease]? = some lease ∧ lease.key = c.key) :
    Banked win B { s with calls := calls } where
  entry key e he := by
    have hok := h.entry key e he
    refine ⟨hok.whole, hok.le_batch, hok.fixed, fun hlt => ?_⟩
    obtain ⟨l, lease, d, hl, hk, hstage, hallowed, c, hc, hcl⟩ := hok.owed hlt
    refine ⟨l, lease, d, hl, hk, hstage, hallowed, c, ?_, hcl⟩
    by_cases hid : lease.issuer = id
    · -- the call that leaves issued a lease of its own key
      rw [hid] at hc
      obtain ⟨-, lease₁, hl₁, hk₁⟩ := h.call id c hc
      obtain rfl : lease = lease₁ := Option.some.inj (hl.symm.trans (hcl ▸ hl₁))
      obtain ⟨lease₂, hl₂, -, hfailed | hle⟩ := hleave c hc
      · obtain rfl : lease = lease₂ := Option.some.inj (hl.symm.trans (hcl ▸ hl₂))
        simp [hstage] at hfailed
      · exact absurd hlt (not_lt.mpr (hle e (by rw [← hk₁, hk]; exact he)))
    · exact (hother _ hid).trans hc
  pending := h.pending
  flight l lease hl hfl := by
    have hok := h.flight l lease hl hfl
    obtain ⟨c, hc, hcl⟩ := hok.issuer
    refine ⟨hok.window, hok.entry, c, ?_, hcl⟩
    by_cases hid : lease.issuer = id
    · rw [hid] at hc
      obtain ⟨lease₁, hl₁, hsettled, -⟩ := hleave c hc
      obtain rfl : lease = lease₁ := Option.some.inj (hl.symm.trans (hcl ▸ hl₁))
      simp [hsettled] at hfl
    · exact (hother _ hid).trans hc
  lease := h.lease
  call id' c hc := by
    by_cases hid : id' = id
    · subst hid
      exact hnew c hc
    · exact h.call id' c ((hother id' hid).symm.trans hc)

theorem Banked.finish (h : Banked win B s) {id : ℕ} (hleave : MayLeave B s id) :
    Banked win B (s.finish id) := by
  refine h.calls (fun id' hne => Function.update_of_ne hne _ _) hleave fun c hc => ?_
  rw [Function.update_self] at hc
  cases hc

theorem Banked.suspend (h : Banked win B s) {id : ℕ} {c : Call} (hleave : MayLeave B s id)
    (hcost : c.cost = 1) (hlease : ∃ lease, s.leases[c.lease]? = some lease ∧ lease.key = c.key) :
    Banked win B (s.suspend id c) := by
  refine h.calls (fun id' hne => Function.update_of_ne hne _ _) hleave fun c' hc' => ?_
  rw [Function.update_self] at hc'
  obtain rfl := Option.some.inj hc'
  exact ⟨hcost, hlease⟩

/-- A call that waits on nothing issues a lease for an entry without credits. -/
theorem Banked.issue (h : Banked win B s) {id : ℕ} (hid : s.calls id = none) (cost entered : ℚ)
    (hcost : cost = 1) (he : s.entries.lookup key = some e) (hcredits : e.credits = 0)
    (hpending : e.pending = none) {lease : Lease}
    (hlease : lease = ⟨key, B, s.clock, false, .requested, false, id⟩) :
    Banked win B
      (((s.addLease lease).setEntry key { e with pending := some s.leases.length }).suspend
      id ⟨key, cost, entered, s.leases.length⟩) := by
  have hold : ∀ (l : ℕ) (lease₀ : Lease), s.leases[l]? = some lease₀ →
      (s.leases ++ [lease])[l]? = some lease₀ := fun l lease₀ hl => by
    rw [List.getElem?_append_left (List.getElem?_eq_some_iff.mp hl).1, hl]
  have hnew : (s.leases ++ [lease])[s.leases.length]? = some lease := List.getElem?_concat_length
  have hissuer : ∀ id' c, s.calls id' = some c →
      Function.update s.calls id (some ⟨key, cost, entered, s.leases.length⟩) id' = some c := by
    intro id' c hc
    rw [Function.update_of_ne, hc]
    rintro rfl
    rw [hid] at hc
    cases hc
  have howed : ∀ key', Owed s key' → Owed (((s.addLease lease).setEntry key
      { e with pending := some s.leases.length }).suspend id
        ⟨key, cost, entered, s.leases.length⟩) key' := by
    rintro key' ⟨l, lease₀, d, hl, hk, hstage, hallowed, c, hc, hcl⟩
    exact ⟨l, lease₀, d, hold l lease₀ hl, hk, hstage, hallowed, c, hissuer _ c hc, hcl⟩
  constructor
  · intro key' e₁ he₁
    rw [Node.suspend_entries, Node.setEntry_entries, OrderedMap.lookup_set] at he₁
    split at he₁
    · rename_i hkey
      obtain rfl := Option.some.inj he₁
      subst hkey
      exact EntryBanked.mono ((h.entry key e he).of_same rfl fun hz => hz) (howed key)
    · exact (h.entry key' e₁ he₁).mono (howed key')
  · intro key' e₁ l he₁ hl
    rw [Node.suspend_entries, Node.setEntry_entries, OrderedMap.lookup_set] at he₁
    split at he₁
    · rename_i hkey
      obtain rfl := Option.some.inj he₁
      obtain rfl := Option.some.inj hl
      exact ⟨lease, hnew, by rw [hlease, ← hkey]⟩
    · obtain ⟨lease₀, hl₀, hk⟩ := h.pending key' e₁ l he₁ hl
      exact ⟨lease₀, hold l lease₀ hl₀, hk⟩
  · intro l lease₀ hl hfl
    rw [Node.suspend_leases, Node.setEntry_leases, Node.addLease_leases] at hl
    rcases getElem?_concat_cases hl with hl₀ | ⟨rfl, rfl⟩
    · have hok := h.flight l lease₀ hl₀ hfl
      obtain ⟨c, hc, hcl⟩ := hok.issuer
      refine ⟨hok.window, ?_, c, hissuer _ c hc, hcl⟩
      rw [Node.suspend_entries, Node.setEntry_entries, OrderedMap.lookup_set]
      obtain ⟨e₁, he₁, hp, hz⟩ := hok.entry
      by_cases hkey : key = lease₀.key
      · -- the entry has no pending lease, so none is in flight
        obtain rfl : e = e₁ := Option.some.inj (he.symm.trans (hkey ▸ he₁))
        rw [hpending] at hp
        cases hp
      · rw [if_neg hkey]
        exact ⟨e₁, he₁, hp, hz⟩
    · subst hlease
      refine ⟨rfl, ⟨{ e with pending := some s.leases.length }, ?_, rfl, hcredits⟩, _,
        Function.update_self _ _ _, rfl⟩
      rw [Node.suspend_entries, Node.setEntry_entries, OrderedMap.lookup_set, if_pos rfl]
  · intro lease₀ hmem
    rcases List.mem_append.mp hmem with hmem₀ | hmem₀
    · exact h.lease lease₀ hmem₀
    · obtain rfl := List.mem_singleton.mp hmem₀
      rw [hlease]
      exact ⟨rfl, rfl⟩
  · intro id' c hc
    by_cases hid' : id' = id
    · subst hid'
      rw [Node.suspend_calls, Function.update_self] at hc
      obtain rfl := Option.some.inj hc
      exact ⟨hcost, lease, hnew, by rw [hlease]⟩
    · rw [Node.suspend_calls, Function.update_of_ne hid'] at hc
      obtain ⟨hone, lease₀, hl₀, hk⟩ := h.call id' c hc
      exact ⟨hone, lease₀, hold _ lease₀ hl₀, hk⟩

end Preservation

section Moves

variable {win : FixedWindow.Config} {cfg : Config Sizer} {B : ℕ} {x : Lapses} {s s' : Node Sizer}
  {evs : List Event} {key : String} {e : Entry Sizer}

theorem Banked.origin_cost (h : Banked win B s) (hbulk : ¬ x.bulk) {id : ℕ} {cost entered : ℚ}
    (horigin : Origin cfg x s id key cost entered e) : cost = 1 := by
  rcases horigin with ⟨-, -, -, hone, -⟩ | ⟨c, hc, -, rfl, -, -⟩
  · exact hone.resolve_right hbulk
  · exact (h.call id c hc).1

/-- The call of a turn may leave its lease once the entry is at most `B - 1`. -/
theorem mayLeave_of_origin {id : ℕ} {cost entered : ℚ}
    (horigin : Origin cfg x s id key cost entered e) {s₁ : Node Sizer}
    (hleases : s₁.leases = s.leases) (hcalls : s₁.calls = s.calls)
    (hle : ∀ e₁, s₁.entries.lookup key = some e₁ → e₁.credits ≤ B - 1) : MayLeave B s₁ id := by
  intro c hc
  rw [hcalls] at hc
  rcases horigin with ⟨hnone, -⟩ | ⟨c₀, hc₀, hkey, -, -, lease, hl, hsettled⟩
  · rw [hnone] at hc
    cases hc
  · obtain rfl : c = c₀ := Option.some.inj (hc.symm.trans hc₀)
    exact ⟨lease, hleases ▸ hl, hsettled, .inr fun e₁ he₁ => hle e₁ (hkey ▸ he₁)⟩

theorem zero_le_carry (hB : 1 ≤ B) : (0 : ℚ) ≤ B - 1 := by
  have hcast : (1 : ℚ) ≤ B := by exact_mod_cast hB
  linarith

/-- An admission leaves an entry at most `B - 1`. -/
theorem EntryBanked.spend (h : EntryBanked B s key e) (hcost : 1 ≤ e.credits) :
    EntryBanked B s' key (e.spend 1) ∧ (e.spend 1).credits ≤ B - 1 := by
  obtain ⟨n, hn⟩ := h.whole
  have hle := h.le_batch
  rw [hn] at hcost hle
  have hone : 1 ≤ n := by exact_mod_cast hcost
  have hleB : n ≤ B := by exact_mod_cast hle
  have hcredits : (e.spend 1).credits = (n - 1 : ℕ) := by
    rw [Nat.cast_sub hone, Nat.cast_one, ← hn]
    rfl
  refine ⟨.of_le_carry hcredits (by omega) h.fixed, ?_⟩
  rw [Entry.spend, hn, fl_exact]
  linarith

/-- The reply that lands is the only lease of its key in flight. -/
theorem Banked.credit (h : Banked win B s) {l : ℕ} {lease : Lease} {d : Decision}
    (hl : s.leases[l]? = some lease) (hstage : lease.stage = .replied d)
    (he : s.entries.lookup lease.key = some e) :
    Banked win B ((s.setLease l { lease with stage := .delivered d }).setEntry lease.key
      (e.land lease d)) ∧ e.credits = 0 ∧
      startOf win.windowMs lease.now = startOf win.windowMs s.clock := by
  have hinflight : lease.stage.settled = false := by rw [hstage, Stage.settled]
  obtain ⟨hwindow, ⟨e₀, he₀, hp, hz⟩, c, hc, hcl⟩ := h.flight l lease hl hinflight
  obtain rfl : e = e₀ := Option.some.inj (he.symm.trans he₀)
  obtain ⟨hlt, -⟩ := List.getElem?_eq_some_iff.mp hl
  have hdone : Banked win B (s.setLease l { lease with stage := .delivered d }) :=
    h.setLease hl rfl rfl rfl rfl rfl (by simp [Stage.settled]) (by simp [hstage])
  have hself : (s.setLease l { lease with stage := .delivered d }).leases[l]?
      = some { lease with stage := .delivered d } := by
    rw [Node.setLease_leases, List.getElem?_set_self hlt]
  have hamount : lease.amount = B := (h.lease lease (List.mem_of_getElem? hl)).1
  have hpending : (e.land lease d).pending = e.pending := by
    unfold Entry.land
    split <;> rfl
  refine ⟨hdone.setEntry ?_ (fun l₁ hl₁ => ?_) fun l₁ lease₁ hl₁ hfl hkey => ?_, hz, hwindow⟩
  · unfold Entry.land
    split
    · rename_i hallowed
      have hcredits : e.credits + lease.amount = B := by rw [hz, hamount, zero_add]
      exact ⟨⟨B, hcredits⟩, hcredits.le, (h.entry lease.key e he).fixed,
        fun _ => ⟨l, _, d, hself, rfl, rfl, hallowed, c, hc, hcl⟩⟩
    · exact (hdone.entry lease.key e he).of_same rfl fun hs => hs
  · rw [hpending] at hl₁
    exact hdone.pending lease.key e l₁ he hl₁
  · obtain ⟨e₁, he₁, hp₁, -⟩ := (hdone.flight l₁ lease₁ hl₁ hfl).entry
    obtain rfl : e = e₁ := Option.some.inj (he.symm.trans (hkey ▸ he₁))
    obtain rfl : l = l₁ := Option.some.inj (hp.symm.trans hp₁)
    obtain rfl := Option.some.inj (hself.symm.trans hl₁)
    simp [Stage.settled] at hfl

/-- **Every move bounds the credits**, save those that drop a leased entry or ask for more than
one. -/
theorem Banked.move (h : Banked win B s) (hunit : UnitLeasing cfg B) (hdrops : ¬ x.drops)
    (hbulk : ¬ x.bulk) (hmove : Move win cfg (calm win) x s evs s') : Banked win B s' := by
  cases hmove with
  | tick now htick => exact h.tick htick
  | upkeep rs => exact ⟨fun key e he => (h.entry key e he).mono fun ho => ho, h.pending,
      fun l lease hl hfl => ⟨(h.flight l lease hl hfl).window, (h.flight l lease hl hfl).entry,
        (h.flight l lease hl hfl).issuer⟩, h.lease, h.call⟩
  | touch key e e' he hcredits hdecision hleasedAt hpending hsizer =>
    refine h.setEntry_same he ?_ hsizer (fun l hl => hpending ▸ hl) fun l _ _ _ hl => hpending ▸ hl
    rcases hcredits with hsame | ⟨hcoupled, -⟩
    · exact hsame
    · simp [hunit.carries] at hcoupled
  | retain keep hkeep =>
    exact h.retain keep fun key e he hk => (hkeep key e he hk).resolve_right hdrops
  | create key hnone =>
    have hzero : ((Entry.fresh cfg).credits : ℚ) = (0 : ℕ) := Nat.cast_zero.symm
    refine h.setEntry (.of_le_carry hzero (by have := hunit.one_le; omega) hunit.fixed)
      (fun l hl => by cases hl) fun l lease hl hfl hkey => ?_
    obtain ⟨e₁, he₁, -⟩ := (h.flight l lease hl hfl).entry
    rw [hkey, hnone] at he₁
    cases he₁
  | spend id key cost entered e d he horigin hcost hwin hplain hd =>
    obtain rfl := h.origin_cost hbulk horigin
    have ⟨hentry, hcarry⟩ : EntryBanked B s key (e.spend 1) ∧ (e.spend 1).credits ≤ B - 1 :=
      (h.entry key e he).spend hcost
    have hset : Banked win B (s.setEntry key (e.spend 1)) := by
      refine h.setEntry hentry (fun l hl => h.pending key e l he hl) fun l lease hl hfl hkey => ?_
      obtain ⟨e₁, he₁, -, hz⟩ := (h.flight l lease hl hfl).entry
      obtain rfl : e = e₁ := Option.some.inj (he.symm.trans (hkey ▸ he₁))
      rw [hz] at hcost
      exact absurd hcost (by norm_num)
    refine hset.finish (mayLeave_of_origin horigin rfl rfl fun e₁ he₁ => ?_)
    obtain rfl : e.spend 1 = e₁ := by simpa using he₁
    exact hcarry
  | spendRefill id key cost entered leaseNow e d he horigin hcost hwin hleaseWin hplain hd htick
      hlow =>
    simp [hunit.lowWater] at hlow
  | ride id c e he horigin hshort hpending =>
    have hone := h.origin_cost hbulk horigin
    have hz := (h.entry c.key e he).eq_zero_of_lt_one (hone ▸ hshort)
    refine h.suspend (mayLeave_of_origin horigin rfl rfl fun e₁ he₁ => ?_) hone
      (h.pending c.key e c.lease he hpending)
    obtain rfl : e = e₁ := Option.some.inj (he.symm.trans he₁)
    rw [hz]
    exact zero_le_carry hunit.one_le
  | issue id key cost entered leaseNow e he horigin hshort hpending hleaseWin htick =>
    have hone := h.origin_cost hbulk horigin
    have hentry := h.entry key e he
    have hz := hentry.eq_zero_of_lt_one (hone ▸ hshort)
    have hamount : max (leaseSizeFor cfg e) cost = B := by
      have hsize : leaseSizeFor cfg e = B := by rw [leaseSizeFor, hentry.fixed, ← hunit.batch]
      rw [hsize, hone]
      exact max_eq_left (by exact_mod_cast hunit.one_le)
    -- the call leaves its old lease before it waits on the new one
    have hfree : Banked win B ((s.tick leaseNow).finish id) := by
      refine (h.tick htick).finish (mayLeave_of_origin horigin rfl rfl fun e₁ he₁ => ?_)
      obtain rfl : e = e₁ := Option.some.inj (he.symm.trans he₁)
      rw [hz]
      exact zero_le_carry hunit.one_le
    have hissued := hfree.issue (by simp : ((s.tick leaseNow).finish id).calls id = none) cost
      entered hone he hz hpending rfl
    rw [hamount]
    convert hissued using 1
    simp [Node.suspend, Node.finish, Node.setEntry, Node.addLease, Node.tick]
  | refuse id ev hcall hev =>
    refine h.finish fun c hc => ?_
    obtain ⟨lease, hl, hsettled, hwhy⟩ := hcall c hc
    refine ⟨lease, hl, hsettled, hwhy.imp_right ?_⟩
    rintro ⟨e, he, hshort⟩ e₁ he₁
    obtain rfl : e = e₁ := Option.some.inj (he.symm.trans he₁)
    rw [(h.call id c hc).1] at hshort
    rw [(h.entry c.key e he).eq_zero_of_lt_one hshort]
    exact zero_le_carry hunit.one_le
  | serve l lease d hl hstage hd =>
    exact h.setLease hl rfl rfl rfl rfl rfl (by simp [hstage, Stage.settled]) (by simp [hstage])
  | lose l lease hl hflight =>
    refine h.setLease hl rfl rfl rfl rfl rfl (fun _ => hflight) fun d hd => ?_
    rw [hd] at hflight
    cases hflight
  | land l lease d hl hstage =>
    exact h.setLease hl rfl rfl rfl rfl rfl (by simp [Stage.settled]) (by simp [hstage])
  | credit l lease d e hl hstage he hrefill hondemand hplain => exact (h.credit hl hstage he).1
  | cleaned l lease hl hsettled =>
    exact h.setLease hl rfl rfl rfl rfl rfl (fun hs => hs) fun d hd => hd
  | clean l lease e hl hsettled he =>
    refine h.setEntry_same he ?_ ?_ (fun l₁ hl₁ => ?_) fun l₁ lease₁ hl₁ hfl hp => ?_
    · unfold Entry.clean
      split <;> rfl
    · intro hs
      unfold Entry.clean
      split <;> exact hs
    · unfold Entry.clean at hl₁
      split at hl₁
      · exact hl₁
      · dsimp only at hl₁
        split at hl₁
        · cases hl₁
        · exact hl₁
    · -- a lease in flight is not the one that is cleaned
      unfold Entry.clean
      split
      · exact hp
      · have hne : e.pending ≠ some l := by
          intro heq
          obtain rfl : l₁ = l := Option.some.inj (hp.symm.trans heq)
          obtain rfl : lease₁ = lease := Option.some.inj (hl₁.symm.trans hl)
          simp [hsettled] at hfl
        simp only [if_neg hne]
        exact hp

end Moves

/-! ### The accounts of a node -/

/-- What `credits` at time `clock` stand for in the window starting at `w`, less the `B - 1` that
may have been carried into the window of the clock and into every window before. -/
def standing (win : FixedWindow.Config) (B : ℕ) (clock credits w : ℚ) : ℚ :=
  if w = startOf win.windowMs clock then credits - (B - 1)
  else if w < startOf win.windowMs clock then -(B - 1)
  else 0

/-- What a node holds for account `k`, less what it may have carried. -/
def carried (win : FixedWindow.Config) (B : ℕ) (s : Node Sizer) (k : String × ℚ) : ℚ :=
  inFlight win s.leases k + standing win B s.clock (creditsOf (s.entries.lookup k.1)) k.2

section Accounts

variable {win : FixedWindow.Config} {cfg : Config Sizer} {B : ℕ} {x : Lapses} {s s' : Node Sizer}
  {evs : List Event} {key : String} {e : Entry Sizer} {k : String × ℚ}

theorem Banked.creditsOf_nonneg (h : Banked win B s) (key : String) :
    0 ≤ creditsOf (s.entries.lookup key) := by
  cases he : s.entries.lookup key with
  | none => exact le_rfl
  | some e => exact (h.entry key e he).nonneg

theorem Banked.inFlight_nonneg (h : Banked win B s) (k : String × ℚ) :
    0 ≤ inFlight win s.leases k := by
  refine Leased.inFlight_nonneg fun lease hmem => ?_
  rw [(h.lease lease hmem).1]
  exact Nat.cast_nonneg B

theorem standing_mono {clock credits credits' w : ℚ} (h : credits ≤ credits') :
    standing win B clock credits w ≤ standing win B clock credits' w := by
  unfold standing
  split
  · exact sub_le_sub_right h _
  · exact le_rfl

theorem neg_le_standing (hB : 1 ≤ B) {clock credits w : ℚ} (h : 0 ≤ credits) :
    -((B : ℚ) - 1) ≤ standing win B clock credits w := by
  have hcarry := zero_le_carry hB
  unfold standing
  split_ifs <;> linarith

theorem standing_le_zero (hB : 1 ≤ B) {clock credits w : ℚ} (h : credits ≤ B - 1) :
    standing win B clock credits w ≤ 0 := by
  have hcarry := zero_le_carry hB
  unfold standing
  split_ifs <;> linarith

/-- Credits count for the window of the clock. -/
theorem standing_sub (clock credits credits' w : ℚ) :
    standing win B clock credits' w = standing win B clock credits w +
      if w = startOf win.windowMs clock then credits' - credits else 0 := by
  unfold standing
  split_ifs <;> ring

theorem Banked.neg_le_carried (h : Banked win B s) (hB : 1 ≤ B) (k : String × ℚ) :
    -((B : ℚ) - 1) ≤ carried win B s k :=
  (neg_le_standing hB (h.creditsOf_nonneg k.1)).trans (le_add_of_nonneg_left (h.inFlight_nonneg k))

/-- Writing an entry changes the account of the window of the clock. -/
theorem carried_setEntry (e' : Entry Sizer) :
    carried win B (s.setEntry key e') k = carried win B s k +
      if k = (key, startOf win.windowMs s.clock) then
        e'.credits - creditsOf (s.entries.lookup key) else 0 := by
  obtain ⟨key', w⟩ := k
  unfold carried
  rw [Node.setEntry_entries, Node.setEntry_leases, Node.setEntry_clock, OrderedMap.lookup_set]
  by_cases hkey : key = key'
  · subst hkey
    rw [if_pos rfl, standing_sub _ (creditsOf (s.entries.lookup key))]
    simp only [Prod.mk.injEq, true_and, creditsOf]
    ring
  · have hne : ¬ (key', w) = (key, startOf win.windowMs s.clock) := fun heq =>
      hkey (Prod.mk.inj heq).1.symm
    rw [if_neg hkey, if_neg hne, add_zero]

theorem carried_setEntry_same (he : s.entries.lookup key = some e) {e' : Entry Sizer}
    (hcredits : e'.credits = e.credits) :
    carried win B (s.setEntry key e') k = carried win B s k := by
  rw [carried_setEntry, he, creditsOf, hcredits, sub_self, ite_self, add_zero]

theorem carried_setLease {l : ℕ} {lease : Lease} (lease' : Lease) (hl : s.leases[l]? = some lease) :
    carried win B (s.setLease l lease') k
      = carried win B s k - lease.repliedTo win k + lease'.repliedTo win k := by
  unfold carried
  rw [Node.setLease_entries, Node.setLease_leases, Node.setLease_clock, inFlight_set lease' hl]
  ring

/-- A reading raises no account: in a new window the credits are at most `B - 1`. -/
theorem carried_tick_le (h : Banked win B s) (hB : 1 ≤ B) {now : ℚ}
    (hcalm : calm win s.clock s.leases s.calls now) :
    carried win B (s.tick now) k ≤ carried win B s k := by
  have hcredits := h.creditsOf_nonneg k.1
  refine add_le_add_right ?_ _
  show standing win B now (creditsOf (s.entries.lookup k.1)) k.2
    ≤ standing win B s.clock (creditsOf (s.entries.lookup k.1)) k.2
  by_cases hwin : startOf win.windowMs s.clock = startOf win.windowMs now
  · rw [standing, standing, hwin]
  · have hlt : startOf win.windowMs s.clock < startOf win.windowMs now :=
      lt_of_le_of_ne (startOf_mono win.windowMs_pos hcalm.1) hwin
    have hle : creditsOf (s.entries.lookup k.1) ≤ B - 1 := by
      cases he : s.entries.lookup k.1 with
      | none => exact zero_le_carry hB
      | some e => exact (h.entry k.1 e he).le_carry (not_owed (hcalm.2 hwin) k.1)
    rcases lt_or_ge k.2 (startOf win.windowMs now) with hk | hk
    · calc standing win B now (creditsOf (s.entries.lookup k.1)) k.2
          = -(B - 1) := by rw [standing, if_neg hk.ne, if_pos hk]
        _ ≤ _ := neg_le_standing hB hcredits
    · calc standing win B now (creditsOf (s.entries.lookup k.1)) k.2
          ≤ 0 := standing_le_zero hB hle
        _ = _ := by
          rw [standing, if_neg (hlt.trans_le hk).ne', if_neg (hlt.trans_le hk).not_gt]

/-- **The step rule of a node's accounts.** -/
theorem carried_move_le (h : Banked win B s) (hunit : UnitLeasing cfg B)
    (hmove : Move win cfg (calm win) x s evs s') (k : String × ℚ) :
    carried win B s' k ≤ carried win B s k + balance (ledger (posting win .atReturn) evs) k := by
  cases hmove with
  | tick now htick => simpa using carried_tick_le h hunit.one_le htick
  | upkeep rs => simp [carried]
  | touch key e e' he hcredits hdecision hleasedAt hpending hsizer =>
    rcases hcredits with hsame | ⟨hcoupled, -⟩
    · rw [carried_setEntry_same he hsame]
      simp
    · simp [hunit.carries] at hcoupled
  | retain keep hkeep =>
    have hold := h.creditsOf_nonneg k.1
    have hle :
        creditsOf ((s.entries.filter keep).lookup k.1) ≤ creditsOf (s.entries.lookup k.1) := by
      rw [OrderedMap.lookup_filter]
      cases he : s.entries.lookup k.1 with
      | none => exact le_rfl
      | some e =>
        rw [he] at hold
        rw [Option.filter_some]
        split
        · exact le_rfl
        · exact hold
    rw [ledger_nil, balance_nil, add_zero]
    exact add_le_add_right (standing_mono hle) _
  | create key hnone =>
    rw [carried_setEntry, hnone]
    simp [creditsOf, Entry.fresh]
  | spend id key cost entered e d he horigin hcost hwin hplain hd =>
    have hfinish : carried win B ((s.setEntry key (e.spend cost)).finish id) k
        = carried win B (s.setEntry key (e.spend cost)) k := rfl
    have hspent : (e.spend cost).credits - e.credits = -cost := by
      simp only [Entry.spend, fl_exact]
      ring
    rw [hfinish, carried_setEntry, he, creditsOf, hspent]
    simp [posting, hd, Counted.reading, eq_comm (a := k)]
  | spendRefill id key cost entered leaseNow e d he horigin hcost hwin hleaseWin hplain hd htick
      hlow =>
    simp [hunit.lowWater] at hlow
  | ride id c e he horigin hshort hpending => simp [carried]
  | issue id key cost entered leaseNow e he horigin hshort hpending hleaseWin htick =>
    have hsuspend : ∀ (s : Node Sizer) c, carried win B (s.suspend id c) k = carried win B s k :=
      fun _ _ => rfl
    have hadd : ∀ (s : Node Sizer) (lease : Lease), lease.stage = .requested →
        carried win B (s.addLease lease) k = carried win B s k := fun s lease hst => by
      simp [carried, inFlight_append, repliedTo_requested hst]
    have hpend : ∀ s₁ : Node Sizer, s₁.entries.lookup key = some e →
        carried win B (s₁.setEntry key { e with pending := some s.leases.length }) k
          = carried win B s₁ k := fun _ he₁ => carried_setEntry_same he₁ rfl
    rw [hsuspend, hpend _ (by exact he), hadd _ _ rfl]
    simpa using carried_tick_le h hunit.one_le htick
  | refuse id ev hcall hev =>
    rcases hev with ⟨err, rfl⟩ | rfl | ⟨key, cost, entered, at', d, rfl, hd⟩
    · simp [carried, posting]
    · simp [carried, posting]
    · simp [carried, posting, hd]
  | serve l lease d hl hstage hd =>
    rw [carried_setLease _ hl, repliedTo_requested hstage]
    cases hallowed : d.allowed with
    | false => simp [Lease.repliedTo, hallowed]
    | true => simp [Lease.repliedTo, hallowed, posting]
  | lose l lease hl hflight =>
    have hnn : 0 ≤ lease.repliedTo win k := repliedTo_nonneg
      (by rw [(h.lease lease (List.mem_of_getElem? hl)).1]; exact Nat.cast_nonneg B)
    rw [carried_setLease _ hl,
      repliedTo_of_settled { lease with stage := .failed } rfl]
    simp only [ledger_nil, balance_nil]
    linarith
  | land l lease d hl hstage =>
    have hnn : 0 ≤ lease.repliedTo win k := repliedTo_nonneg
      (by rw [(h.lease lease (List.mem_of_getElem? hl)).1]; exact Nat.cast_nonneg B)
    rw [carried_setLease _ hl,
      repliedTo_of_settled { lease with stage := .delivered d } rfl]
    simp only [ledger_nil, balance_nil]
    linarith
  | credit l lease d e hl hstage he hrefill hondemand hplain =>
    -- the credits gained are those the reply held, of the window of the clock
    obtain ⟨-, hz, hwindow⟩ := h.credit hl hstage he
    have hland : (e.land lease d).credits - e.credits = if d.allowed then lease.amount else 0 := by
      unfold Entry.land
      split <;> simp
    rw [carried_setEntry, carried_setLease _ hl,
      repliedTo_of_settled { lease with stage := .delivered d } rfl, Node.setLease_entries,
      Node.setLease_clock, he, creditsOf, hland, Lease.repliedTo, hstage, ← hwindow]
    simp only [ledger_nil, balance_nil, eq_comm (a := k)]
    by_cases hk : (lease.key, startOf win.windowMs lease.now) = k
    · simp [hk, -startOf_exact]
    · simp [hk, -startOf_exact]
  | cleaned l lease hl hsettled =>
    have hsame : Lease.repliedTo win k { lease with cleaned := true } = lease.repliedTo win k := rfl
    rw [carried_setLease _ hl, hsame]
    simp
  | clean l lease e hl hsettled he =>
    have hclean : (e.clean l lease.refill).credits = e.credits := by
      unfold Entry.clean
      split <;> rfl
    rw [carried_setEntry_same he hclean]
    simp

end Accounts

/-! ### The nodes together -/

instance (win : FixedWindow.Config) (clock : ℚ) (leases : List Lease) (calls : ℕ → Option Call)
    (now : ℚ) : Decidable (calm win clock leases calls now) :=
  inferInstanceAs (Decidable (_ ∧ _))

/-- The conditions on a step: the node's clock readings do not go back, and go to another window
only with no lease outstanding; no entry is dropped while a lease of its key is in flight; a check
asks for one; and the store applies leases in window order and serves no reset. -/
def CarryStep {ι : Type} (win : FixedWindow.Config) (cfg : ι → Config Sizer)
    (s : Parties ι L2 (Node Sizer)) (a : ι × Act) : Prop :=
  ReadingsOk (calm win) (s.party a.1) a.2 ∧ dropsLeased (cfg a.1) (s.party a.1) a.2 = false ∧
    asksBulk a.2 = false ∧ ServesInOrder win s a = true

instance {ι : Type} (win : FixedWindow.Config) (cfg : ι → Config Sizer)
    (s : Parties ι L2 (Node Sizer)) (a : ι × Act) : Decidable (CarryStep win cfg s a) :=
  inferInstanceAs (Decidable (_ ∧ _))

section Fleet

variable {ι : Type} [DecidableEq ι] {win : FixedWindow.Config} {cfg : ι → Config Sizer} {B : ℕ}

theorem carried_of_run (hunit : ∀ i, UnitLeasing (cfg i) B) {log : List (ι × Event)}
    {s : Parties ι L2 (Node Sizer)}
    (hrun : (fleet win cfg).Run (CarryStep win cfg) (start ι) log s) (i : ι) :
    Banked win B (s.party i) ∧ Backed (carried win B (s.party i))
      (ledger (posting win .atReturn) (Parties.outputsOf i log)) := by
  refine Parties.run_party (I := fun _ s log =>
    Banked win B s ∧ Backed (carried win B s) (ledger (posting win .atReturn) log))
    (fun i => ⟨.new win B, .nil fun k => ?_⟩) ?_ hrun i
  · show 0 + standing win B 0 0 k.2 ≤ 0
    rw [zero_add]
    exact standing_le_zero (hunit i).one_le (zero_le_carry (hunit i).one_le)
  · intro s i a l2 s' evs log hinv hok hstep
    have hdrops : ¬ (lapses win (cfg i) (s.party i) a).drops := ne_true_of_eq_false hok.2.1
    have hbulk : ¬ (lapses win (cfg i) (s.party i) a).bulk := ne_true_of_eq_false hok.2.2.1
    refine Chain.invariant (I := fun s log =>
      Banked win B s ∧ Backed (carried win B s) (ledger (posting win .atReturn) log))
      (fun s log s' new hI hmove => ?_) (step_moves hstep hok.1) hinv
    refine ⟨hI.1.move (hunit i) hdrops hbulk hmove, ?_⟩
    rw [ledger_append]
    exact hI.2.append (carried_move_le hI.1 (hunit i) hmove)

end Fleet

/-! ### The conditions are needed -/

/-- A fixed window of `limit` a second. -/
def aSecond (limit : ℕ) (h : 0 < limit) : FixedWindow.Config :=
  ⟨limit, 1000, by exact_mod_cast h, second_pos⟩

/-- A node that leases in twos and keeps at most `maxKeys` keys. -/
def pairs (maxKeys : Option ℚ) : Config Unit where
  batch := 2
  lowWater := 0
  returnIdleAfterMs := none
  windowCoupled := false
  makeSizer := none
  size _ := 1
  observe z _ := z
  maxKeys := maxKeys
  keyPrefix := none
  one_le_batch := one_le_pair

theorem pairs_unitLeasing (maxKeys : Option ℚ) : UnitLeasing (pairs maxKeys) 2 :=
  ⟨rfl, rfl, rfl, by norm_num [pairs]⟩

/-- One node carries a credit into the second window, where the other leases all of the limit. -/
def carriesOne : List (Bool × Act) :=
  [(true, .check 0 "k" 1 10 10), (true, .serve 0), (true, .deliver 0 20), (true, .resume 0 20 20),
    (true, .clean 0), (false, .check 0 "k" 1 1010 1010), (true, .check 1 "k" 1 1020 1020),
    (false, .serve 0), (false, .deliver 0 1030), (false, .resume 0 1030 1030),
    (false, .check 1 "k" 1 1040 1040)]

/-- The entry of `k` is evicted with a lease in flight, and its next check leases again. Both leases
land in the next window, in the entry there is then. -/
def dropsLease : List (Unit × Act) :=
  [((), .check 0 "k" 1 10 10), ((), .serve 0), ((), .check 1 "j" 1 20 20),
    ((), .check 2 "k" 1 30 30), ((), .serve 2), ((), .deliver 0 1010), ((), .deliver 2 1010),
    ((), .resume 0 1020 1020), ((), .resume 2 1020 1020), ((), .clean 2),
    ((), .check 3 "k" 1 1030 1030), ((), .check 4 "k" 1 1030 1030),
    ((), .check 5 "k" 1 1040 1040), ((), .serve 3), ((), .deliver 3 1050),
    ((), .resume 5 1050 1050), ((), .clean 3), ((), .check 6 "k" 1 1060 1060),
    ((), .check 7 "k" 1 1070 1070), ((), .serve 4), ((), .deliver 4 1080),
    ((), .resume 7 1080 1080), ((), .check 8 "k" 1 1090 1090)]

end ThrottleKit.Leased
