import ThrottleKit.Federation.Bookkeeping

/-!
# Escrowed tokens are spent in their own window

A process of a region gets tokens from the coordinator and from the regional escrow, and each grant
is of one window. Here the log of a process is read as an account of its escrow: the credits made
since the key's window began, and what is left of them. As long as no call picks up tokens of a
window its entry is not in, every admission is paid for by credits of the window it is in.

A grant of the coordinator that reaches the entry directly is checked against the entry's window
(`coordinator_credits_fresh`). A reply of the regional escrow is not, and a late one is spent in the
next window (`late_escrow_reply_spent_in_next_window`).

## Main definitions

* `escrowed` — the credits of the current window and what is left of them, read off the log
* `SpendsOwn` — an admission is paid for by credits of its own window

## Main results

* `spends_credits_of_own_window` — in runs in which no stale tokens are picked up
* `late_escrow_reply_spent_in_next_window` — without that condition it fails
-/

namespace ThrottleKit.WindowCoupled

open AlignedWindow RegionalEscrow Machine

/-! ### Reading the escrow off the log -/

/-- A key's escrow, as its process has made it visible. -/
structure Escrowed where
  /-- Tokens and window of each credit since the key's window began. -/
  credits : List (ℚ × ℚ)
  /-- What the admissions since have left of them. -/
  left : ℚ

/-- The escrow with nothing in it. -/
def Escrowed.empty : Escrowed := ⟨[], 0⟩

/-- The escrow of `key` after an event. -/
def Escrowed.next (key : String) (x : Escrowed) : Event → Escrowed
  | .credited k tokens source _ _ =>
    if k = key then ⟨x.credits ++ [(tokens, source)], x.left + tokens⟩ else x
  | .decided _ k cost d => if k = key ∧ d.allowed then { x with left := x.left - cost } else x
  | .rolled k _ | .dropped k => if k = key then .empty else x
  | .cleared => .empty
  | .rejected _ _ | .granted _ _ _ | .reconciled _ _ _ _ => x

/-- The escrow of `key` after a log. -/
def escrowed (key : String) (log : List Event) : Escrowed :=
  log.foldl (Escrowed.next key) .empty

/-- An admission is covered by credits, all of which are of the window it is in. -/
def SpendsOwn (cfg : Config) (log : List Event) : Event → Prop
  | .decided _ key cost d => d.allowed = true →
    (∀ c ∈ (escrowed key log).credits, c.2 + cfg.windowMs = d.resetAt) ∧
      cost ≤ (escrowed key log).left
  | _ => True

/-- The event neither moves an escrow nor admits. -/
def Event.Neutral : Event → Prop
  | .decided _ _ _ d => d.allowed = false
  | .rejected _ _ | .granted _ _ _ | .reconciled _ _ _ _ => True
  | _ => False

theorem Event.Neutral.next {ev : Event} (h : ev.Neutral) (key : String) (x : Escrowed) :
    x.next key ev = x := by
  cases ev with
  | decided id k cost d =>
    have hd : d.allowed = false := h
    simp [Escrowed.next, hd]
  | rejected id err => rfl
  | granted k t w => rfl
  | reconciled k t w l => rfl
  | credited k t w w' l => cases h
  | rolled k w => cases h
  | dropped k => cases h
  | cleared => cases h

theorem Event.Neutral.spendsOwn {ev : Event} (h : ev.Neutral) (cfg : Config) (log : List Event) :
    SpendsOwn cfg log ev := by
  cases ev with
  | decided id k cost d =>
    have hd : d.allowed = false := h
    simp [SpendsOwn, hd]
  | _ => trivial

theorem escrowed_append (key : String) (log new : List Event) :
    escrowed key (log ++ new) = new.foldl (Escrowed.next key) (escrowed key log) :=
  List.foldl_append

theorem escrowed_concat (key : String) (log : List Event) (ev : Event) :
    escrowed key (log ++ [ev]) = (escrowed key log).next key ev := by
  rw [escrowed_append, List.foldl_cons, List.foldl_nil]

theorem escrowed_append_neutral (key : String) {log new : List Event}
    (h : ∀ ev ∈ new, ev.Neutral) : escrowed key (log ++ new) = escrowed key log := by
  rw [escrowed_append]
  induction new with
  | nil => rfl
  | cons ev new ih =>
    rw [List.foldl_cons, (h ev List.mem_cons_self).next]
    exact ih fun ev' hev' => h ev' (List.mem_cons_of_mem _ hev')

/-! ### The invariant -/

/-- The escrow read off the log is the one in the map, and every credit was of its entry's window
when it was made. -/
structure InWindow (cfg : Config) (s : Engine) (log : List Event) : Prop where
  source : ∀ key e, s.entries key = some e →
    ∀ c ∈ (escrowed key log).credits, c.2 = e.windowStart
  left : ∀ key e, s.entries key = some e → (escrowed key log).left = e.balance
  absent : ∀ key, s.entries key = none → escrowed key log = .empty
  credited : ∀ key tokens source w l, .credited key tokens source w l ∈ log → source = w
  spends : EachAt (SpendsOwn cfg) log

theorem InWindow.new (cfg : Config) : InWindow cfg .new [] where
  source := by rintro key e ⟨⟩
  left := by rintro key e ⟨⟩
  absent _ _ := rfl
  credited := by rintro key tokens source w l ⟨⟩
  spends := eachAt_nil _

section Preservation

variable {cfg : Config} {s s' : Engine} {log : List Event}

/-- The windows and balances stay and nothing is credited or spent. -/
theorem InWindow.keep (h : InWindow cfg s log) {new : List Event}
    (hentries : ∀ key e', s'.entries key = some e' → ∃ e, s.entries key = some e ∧
      e'.balance = e.balance ∧ e'.windowStart = e.windowStart)
    (hnone : ∀ key, s'.entries key = none → s.entries key = none)
    (hnew : ∀ ev ∈ new, ev.Neutral) : InWindow cfg s' (log ++ new) := by
  constructor
  · intro key e' he'
    obtain ⟨e, he, -, hws⟩ := hentries key e' he'
    rw [escrowed_append_neutral key hnew, hws]
    exact h.source key e he
  · intro key e' he'
    obtain ⟨e, he, hbal, -⟩ := hentries key e' he'
    rw [escrowed_append_neutral key hnew, hbal]
    exact h.left key e he
  · intro key hk
    rw [escrowed_append_neutral key hnew]
    exact h.absent key (hnone key hk)
  · intro key tokens source w l hmem
    rcases List.mem_append.mp hmem with hold | hev
    · exact h.credited key tokens source w l hold
    · cases hnew _ hev
  · exact h.spends.append fun ev hev pre => (hnew ev hev).spendsOwn cfg pre

theorem InWindow.keep_entries (h : InWindow cfg s log) {new : List Event}
    (hentries : s'.entries = s.entries) (hnew : ∀ ev ∈ new, ev.Neutral) :
    InWindow cfg s' (log ++ new) := by
  refine h.keep ?_ ?_ hnew
  · intro key e he
    rw [hentries] at he
    exact ⟨e, he, rfl, rfl⟩
  · intro key hk
    rwa [hentries] at hk

/-- An entry is written again with its window and balance. -/
theorem InWindow.setEntry (h : InWindow cfg s log) {key : String} {e e' : Entry}
    (he : s.entries key = some e) (hbal : e'.balance = e.balance)
    (hws : e'.windowStart = e.windowStart) : InWindow cfg (s.setEntry key e') (log ++ []) := by
  refine h.keep ?_ ?_ (by simp)
  · intro key' e'' he''
    rw [Engine.setEntry_entries, Function.update_apply] at he''
    split at he''
    · rename_i hkey
      obtain rfl := Option.some.inj he''
      exact ⟨e, hkey ▸ he, hbal, hws⟩
    · exact ⟨e'', he'', rfl, rfl⟩
  · intro key' hk
    rw [Engine.setEntry_entries, Function.update_apply] at hk
    split at hk
    · cases hk
    · exact hk

/-- One key's slot changes, and one event says how. -/
theorem InWindow.change (h : InWindow cfg s log) {key : String} {o : Option Entry} {ev : Event}
    (hentries : s'.entries = Function.update s.entries key o)
    (hother : ∀ key' x, key' ≠ key → Escrowed.next key' x ev = x)
    (hsource : ∀ e, o = some e →
      ∀ c ∈ ((escrowed key log).next key ev).credits, c.2 = e.windowStart)
    (hleft : ∀ e, o = some e → ((escrowed key log).next key ev).left = e.balance)
    (habsent : o = none → (escrowed key log).next key ev = .empty)
    (hcredited : ∀ k tokens source w l, ev = .credited k tokens source w l → source = w)
    (hspends : SpendsOwn cfg log ev) : InWindow cfg s' (log ++ [ev]) := by
  have hslot : ∀ key', s'.entries key' = if key' = key then o else s.entries key' := by
    intro key'
    rw [hentries, Function.update_apply]
  constructor
  · intro key' e he
    rw [hslot] at he
    rw [escrowed_concat]
    split at he
    · rename_i hkey
      exact hkey ▸ hsource e he
    · rw [hother key' _ ‹_›]
      exact h.source key' e he
  · intro key' e he
    rw [hslot] at he
    rw [escrowed_concat]
    split at he
    · rename_i hkey
      exact hkey ▸ hleft e he
    · rw [hother key' _ ‹_›]
      exact h.left key' e he
  · intro key' hk
    rw [hslot] at hk
    rw [escrowed_concat]
    split at hk
    · rename_i hkey
      exact hkey ▸ habsent hk
    · rw [hother key' _ ‹_›]
      exact h.absent key' hk
  · intro k tokens source w l hmem
    rcases List.mem_append.mp hmem with hold | hev
    · exact h.credited k tokens source w l hold
    · exact hcredited k tokens source w l (List.mem_singleton.mp hev).symm
  · exact eachAt_concat.mpr ⟨h.spends, hspends⟩

/-- A credit of tokens of the entry's window. -/
theorem InWindow.credit (h : InWindow cfg s log) {key : String} {e e' : Entry} {tokens : ℚ}
    {l : Option ℕ} (he : s.entries key = some e) (hbal : e'.balance = e.balance + tokens)
    (hws : e'.windowStart = e.windowStart) :
    InWindow cfg (s.setEntry key e')
      (log ++ [.credited key tokens e.windowStart e.windowStart l]) := by
  refine h.change (o := some e') rfl ?_ ?_ ?_ ?_ ?_ trivial
  · intro key' x hne
    simp [Escrowed.next, Ne.symm hne]
  · intro e'' heq c hc
    obtain rfl := Option.some.inj heq
    simp only [Escrowed.next, if_true, List.mem_append, List.mem_singleton] at hc
    rcases hc with hold | rfl
    · rw [hws]
      exact h.source key e he c hold
    · exact hws.symm
  · intro e'' heq
    obtain rfl := Option.some.inj heq
    simp [Escrowed.next, h.left key e he, hbal]
  · rintro ⟨⟩
  · intro k t source w l' heq
    obtain ⟨-, -, rfl, rfl, -⟩ := Event.credited.inj heq
    rfl

theorem InWindow.move {rider : Prop} {evs : List Event} (hs : Sound cfg s)
    (h : InWindow cfg s log) (hmove : Move cfg rider False s evs s') :
    InWindow cfg s' (log ++ evs) := by
  cases hmove with
  | upkeep healthy at' probe n rs _ hevs =>
    refine h.keep_entries rfl fun ev hev => ?_
    obtain ⟨k, t, w, rfl⟩ := hevs ev hev
    trivial
  | suspend id c hwait hasked hserved => exact h.keep_entries rfl (by simp)
  | ride id c e l he hpending hwait => exact h.keep_entries rfl (by simp)
  | refuse id ev hev =>
    refine h.keep_entries rfl fun ev' hev' => ?_
    rw [List.mem_singleton.mp hev']
    rcases hev with ⟨err, rfl⟩ | ⟨key, cost, d, rfl, hd⟩
    · trivial
    · exact hd
  | create key now hnone =>
    have hempty := h.absent key hnone
    rw [List.append_nil]
    constructor
    · intro key' e he
      rw [Engine.setEntry_entries, Function.update_apply] at he
      split at he
      · rename_i hkey
        rw [hkey, hempty]
        simp [Escrowed.empty]
      · exact h.source key' e he
    · intro key' e he
      rw [Engine.setEntry_entries, Function.update_apply] at he
      split at he
      · rename_i hkey
        obtain rfl := Option.some.inj he
        rw [hkey, hempty]
        rfl
      · exact h.left key' e he
    · intro key' hk
      rw [Engine.setEntry_entries, Function.update_apply] at hk
      split at hk
      · cases hk
      · exact h.absent key' hk
    · exact h.credited
    · exact h.spends
  | roll key now r e he hexpired =>
    refine h.change (o := some (.opened cfg now r)) rfl ?_ ?_ ?_ ?_ ?_ trivial
    · intro key' x hne
      simp [Escrowed.next, Ne.symm hne]
    · simp [Escrowed.next, Escrowed.empty]
    · rintro e' heq
      obtain rfl := Option.some.inj heq
      simp [Escrowed.next, Escrowed.empty, Entry.opened]
    · rintro ⟨⟩
    · rintro k t source w l ⟨⟩
  | issue id key tokens now e he =>
    have hadded : InWindow cfg (s.addLease ⟨key, tokens, e.windowStart, e.windowExpiresAt, now,
        .leasing, some id⟩) log := by
      rw [← List.append_nil log]
      exact h.keep_entries rfl (by simp)
    exact hadded.setEntry he rfl rfl
  | lease l lease stage evs hl hlease =>
    refine h.keep_entries rfl ?_
    cases hlease with
    | granted g hst hg hL1 => simp [Event.Neutral]
    | grantedToEscrow g hst hg hL2 => simp [Event.Neutral]
    | _ => simp
  | creditEscrow id c tokens source e hc hwait htokens he hstale =>
    obtain rfl : source = e.windowStart := hstale.resolve_right not_false
    exact h.credit he rfl rfl
  | creditLease id c l lease grant source e hc hwait hl hstage hgrant he hrider hstale =>
    obtain rfl : source = e.windowStart := hstale.resolve_right not_false
    have hclaimed : InWindow cfg (s.setLease l (lease.claimedBy id)) log := by
      rw [← List.append_nil log]
      exact h.keep_entries rfl (by simp)
    exact hclaimed.credit he rfl rfl
  | forfeit id c l ws lease grant source evs hc hwait hl hstage hevs =>
    refine h.keep_entries rfl fun ev hev => ?_
    rcases hevs with ⟨-, rfl⟩ | rfl | ⟨-, rfl⟩
    · cases hev
    · rw [List.mem_singleton.mp hev]
      trivial
    · cases hev
  | clearPending key e l he => exact h.setEntry he rfl rfl
  | spend id key cost e he hcost =>
    refine h.change (o := some (e.spend cost)) rfl ?_ ?_ ?_ ?_ ?_ ?_
    · intro key' x hne
      simp [Escrowed.next, Ne.symm hne]
    · rintro e' heq
      obtain rfl := Option.some.inj heq
      simp only [Escrowed.next, admitted, and_self, if_true]
      exact h.source key e he
    · rintro e' heq
      obtain rfl := Option.some.inj heq
      simp [Escrowed.next, admitted, h.left key e he, Entry.spend]
    · rintro ⟨⟩
    · rintro k t source w l ⟨⟩
    · refine fun _ => ⟨fun c hc => ?_, ?_⟩
      · rw [h.source key e he c hc, ← hs.entry_expires key e he]
        rfl
      · rw [h.left key e he]
        exact hcost
  | drop key =>
    refine h.change (o := none) rfl ?_ ?_ ?_ ?_ ?_ trivial
    · intro key' x hne
      simp [Escrowed.next, Ne.symm hne]
    · rintro e' ⟨⟩
    · rintro e' ⟨⟩
    · simp [Escrowed.next]
    · rintro k t source w l ⟨⟩
  | clear =>
    constructor
    · rintro key e ⟨⟩
    · rintro key e ⟨⟩
    · intro key hk
      rw [escrowed_concat]
      rfl
    · intro k t source w l hmem
      rcases List.mem_append.mp hmem with hold | hev
      · exact h.credited k t source w l hold
      · cases List.mem_singleton.mp hev
    · exact eachAt_concat.mpr ⟨h.spends, trivial⟩

end Preservation

/-- Without a regional escrow every grant that a call picks up is of its entry's window. -/
theorem coordinator_credits_fresh {cfg : Config} {s : Engine} (h : Sound cfg s)
    (hL1 : cfg.regionalEscrow = false) (a : Act) : creditsStale s a = false := by
  cases a with
  | resume id now =>
    cases hc : s.calls id with
    | none => simp [creditsStale, hc]
    | some c =>
      obtain ⟨key, cost, now', waiting⟩ := c
      have hwaits := h.waits_ok id _ hc
      cases waiting with
      | probe p => simp [creditsStale, hc]
      | escrow w => simp [creditsStale, hc]
      | escrowReply g w => simp [WaitsOk, hL1] at hwaits
      | lease l ws =>
        obtain ⟨lease, hl, hkey, hws⟩ := hwaits
        have hstage := h.stage_ok lease (List.mem_of_getElem? hl)
        obtain ⟨_, _, _, _, _, stage, claimant⟩ := lease
        cases stage with
        | settled grant source =>
          obtain rfl : source = ws := (hstage.2 hL1).trans hws
          cases he : s.entries key with
          | none => simp [creditsStale, hc, hl, he]
          | some e =>
            simp only [creditsStale, hc, hl, he]
            by_cases hw : e.windowStart = source <;> simp [hw]
        | _ => simp [creditsStale, hc, hl]
  | _ => rfl

/-- The step does not have a call of a process with a regional escrow pick up tokens of a window
its entry is not in. -/
def CreditsFresh {ι : Type} (cfg : ι → Config) (s : Parties ι Escrow Engine) (a : ι × Act) : Prop :=
  (cfg a.1).regionalEscrow = true → creditsStale (s.party a.1) a.2 = false

instance {ι : Type} (cfg : ι → Config) (s : Parties ι Escrow Engine) (a : ι × Act) :
    Decidable (CreditsFresh cfg s a) :=
  inferInstanceAs (Decidable (_ → _))

section Fleet

variable {ι : Type} [DecidableEq ι] {cfg : ι → Config} {windowMs : ℚ}

/-- **Tokens are spent in their own window.** In every run in which no call of a process with a
regional escrow picks up tokens of a window its entry is not in: at every process, every admission
is covered by credits that are all of the window it is in, and no credit adds tokens of one window
to the balance of another. -/
theorem spends_credits_of_own_window {log : List (ι × Event)} {s : Parties ι Escrow Engine}
    (hrun : (fleet cfg).Run (CreditsFresh cfg) (start ι windowMs) log s) (i : ι) :
    EachAt (SpendsOwn (cfg i)) (Parties.outputsOf i log) ∧
      ∀ key tokens source w l, .credited key tokens source w l ∈ Parties.outputsOf i log →
        source = w := by
  have hinv : Sound (cfg i) (s.party i) ∧
      InWindow (cfg i) (s.party i) (Parties.outputsOf i log) := by
    refine Parties.run_party (I := fun i s log => Sound (cfg i) s ∧ InWindow (cfg i) s log)
      (fun i => ⟨.new _, .new _⟩) ?_ hrun i
    intro s i a l2 s' evs log hinv hok hstep
    have hfresh : creditsStale (s.party i) a = false := by
      cases hL2 : (cfg i).regionalEscrow with
      | true => exact hok hL2
      | false => exact coordinator_credits_fresh hinv.1 hL2 a
    have hmoves := step_moves hstep
    simp only [hfresh, Bool.false_eq_true] at hmoves
    exact Chain.invariant (I := fun s log => Sound (cfg i) s ∧ InWindow (cfg i) s log)
      (fun _ _ _ _ h hm => ⟨h.1.move hm, h.2.move h.1 hm⟩) hmoves hinv
  exact ⟨hinv.2.spends, hinv.2.credited⟩

end Fleet

/-! ### The condition is needed -/

/-- A process that leases in twos through a regional escrow. -/
def escrowPairs : Config where
  limit := 2
  windowMs := 1000
  batch := 2
  regionalEscrow := true
  regionalOnly := false
  probes := false
  healthCheckMs := 1000
  keyPrefix := none
  windowMs_pos := second_pos
  one_le_batch := one_le_pair
  one_le_healthCheckMs := one_le_second

/-- One process refills the regional escrow, another serves a check from it. -/
def sharedEscrow : List (Bool × Act) :=
  [(true, .check 0 "k" 1 0), (true, .escrowLease 0 0), (true, .resume 0 0),
    (true, .coordinator 0 (some 2)), (true, .escrowRefill 0 10), (false, .check 0 "k" 1 10),
    (false, .escrowLease 0 20), (false, .resume 0 30)]

theorem spends_credits_of_own_window_shared_escrow :
    EachAt (SpendsOwn escrowPairs) (Parties.outputsOf false
      (((fleet fun _ : Bool => escrowPairs).exec (start Bool 1000) sharedEscrow).get
        (by decide +kernel)).2) :=
  (spends_credits_of_own_window
    (run_of_isSome (by decide +kernel) (by decide +kernel)) false).1

/-- A call is served by the regional escrow at 10 and picks the reply up at 1000, after another
call has rolled the entry. -/
def lateEscrowReply : List (Unit × Act) :=
  [((), .check 0 "k" 1 0), ((), .check 1 "k" 1 0), ((), .escrowLease 0 0), ((), .resume 0 0),
    ((), .coordinator 0 (some 2)), ((), .escrowRefill 0 10), ((), .escrowLease 1 10),
    ((), .check 2 "k" 1 1000), ((), .resume 1 1000)]

/-- **A late reply of the regional escrow is spent in the next window.** -/
theorem late_escrow_reply_spent_in_next_window :
    ¬ ∀ (log : List (Unit × Event)) (s : Parties Unit Escrow Engine),
      (fleet fun _ : Unit => escrowPairs).Run (fun _ _ => True) (start Unit 1000) log s →
        EachAt (SpendsOwn escrowPairs) (Parties.outputsOf () log) ∧
          ∀ key tokens source w l, .credited key tokens source w l ∈ Parties.outputsOf () log →
            source = w := by
  intro h
  have hrun := run_of_isSome (m := fleet fun _ : Unit => escrowPairs) (p := fun _ _ => True)
    (s := start Unit 1000) (l := lateEscrowReply) (by decide +kernel) (by decide +kernel)
  exact absurd ((h _ _ hrun).2 "k" 2 0 1000 none (by decide +kernel)) (by norm_num)

end ThrottleKit.WindowCoupled
