import Mathlib.Tactic.Linarith
import ThrottleKit.Concurrency.Distributed

/-!
# The self-fence stops before the recorded expiry

With one clock for all parties, an expiry that a guard takes for its own is one the coordinator
still records for it, or one that has passed: a heartbeat raises the recorded expiry to the reported
one before the guard learns of it, and a record is evicted only after its expiry. So a guard that
admits before the expiry it knows of admits before the recorded one.

A heartbeat that is processed late breaks this. It overwrites the recorded expiry with its own,
older one, whatever its `seq` (`stale_heartbeat_lowers_expiry`).

## Main definitions

* `ExpiryRecorded`, `Covered` — the invariant
* `FenceStep` — the conditions on a step

## Main results

* `Covered.step` — every step keeps the invariant
* `admits_before_recorded_expiry` — an admission is before the recorded expiry
-/

namespace ThrottleKit.Concurrency

open Machine

variable {ι : Type} [LinearOrder ι]

/-- Expiry `x` is recorded for node `i`, or has passed. -/
def ExpiryRecorded (coord : Coordinator ι) (i : ι) (x : ℚ) : Prop :=
  (∃ rec, coord.records.lookup i = some rec ∧ x ≤ rec.expiresAt) ∨ x < coord.clock

/-- What ties the expiries an open guard knows of to the coordinator's records. -/
structure Covered (cfg : Config) (coord : Coordinator ι) (i : ι) (n : Node ι) : Prop where
  nodeId : ∀ beat ∈ n.beats, beat.report.nodeId = i
  leaving : n.leaving = true → n.guard.closed = true
  cold : n.guard.leaseExpiresAt = none → cfg.failClosed = true → n.guard.share = 0
  lease : n.guard.closed = false → ∀ x, n.guard.leaseExpiresAt = some x → ExpiryRecorded coord i x
  reply : n.guard.closed = false → ∀ beat ∈ n.beats, beat.grant.isSome → beat.awaited = true →
    ExpiryRecorded coord i beat.report.expiresAt

/-! ### The conditions on a step -/

/-- The readings of a step do not go back. -/
def readsForward (clock : ℚ) : Act → Bool
  | .acquire now | .send now | .process _ now => clock ≤ now
  | .release | .adapt _ _ | .deliver _ | .fail _ | .close | .leave => true

/-- The step processes a heartbeat of an older expiry than the one recorded for its node. -/
def lowersExpiry (coord : Coordinator ι) (i : ι) (n : Node ι) : Act → Bool
  | .process b _ =>
    match n.beats[b]?, coord.records.lookup i with
    | some beat, some rec => beat.report.expiresAt < rec.expiresAt
    | _, _ => false
  | _ => false

/-- A guard that an outage leaves to its own limit is asked before its first successful
heartbeat. -/
def admitsUnleased (cfg : Config) (n : Node ι) : Act → Bool
  | .acquire _ => !cfg.failClosed && n.guard.leaseExpiresAt.isNone
  | _ => false

/-- The clock that all parties read does not go back. -/
def SharedClock (s : Parties ι (Coordinator ι) (Node ι)) (a : ι × Act) : Prop :=
  readsForward s.shared.clock a.2 = true

/-- The conditions on a step: the clock does not go back, no heartbeat lowers its node's recorded
expiry, and a guard that fails open has a lease. -/
def FenceStep (cfg : ι → Config) (s : Parties ι (Coordinator ι) (Node ι)) (a : ι × Act) : Prop :=
  SharedClock s a ∧ lowersExpiry s.shared a.1 (s.party a.1) a.2 = false ∧
    admitsUnleased (cfg a.1) (s.party a.1) a.2 = false

instance (s : Parties ι (Coordinator ι) (Node ι)) (a : ι × Act) : Decidable (SharedClock s a) :=
  inferInstanceAs (Decidable (_ = _))

instance (cfg : ι → Config) (s : Parties ι (Coordinator ι) (Node ι)) (a : ι × Act) :
    Decidable (FenceStep cfg s a) :=
  inferInstanceAs (Decidable (_ ∧ _))

/-! ### The coordinator's side of a step -/

section Step

variable {opts : HeartbeatOptions} {cfg : Config} {coord coord' : Coordinator ι} {i j : ι}
  {n n' : Node ι} {a : Act} {evs : List Event} {x : ℚ}

theorem ExpiryRecorded.tick {now : ℚ} (h : ExpiryRecorded coord i x) (hle : coord.clock ≤ now) :
    ExpiryRecorded { coord with clock := now } i x :=
  h.imp_right fun hlt => hlt.trans_le hle

/-- Processing a heartbeat keeps every expiry recorded that it does not lower. -/
theorem ExpiryRecorded.process {report : Report ι} {now : ℚ} (h : ExpiryRecorded coord i x)
    (hle : coord.clock ≤ now) (hkeeps : ∀ rec, report.nodeId = i →
      coord.records.lookup i = some rec → rec.expiresAt ≤ report.expiresAt) :
    ExpiryRecorded ⟨(applyHeartbeat opts coord.records report now).1, now⟩ i x := by
  obtain ⟨rec', hrecords, hexpires⟩ := applyHeartbeat_records opts coord.records report now
  rcases h with ⟨rec, hrec, hx⟩ | hlt
  · rw [ExpiryRecorded, hrecords]
    by_cases hi : report.nodeId = i
    · refine .inl ⟨rec', ?_, ?_⟩
      · rw [hi, OrderedMap.lookup_set_self]
      · rw [hexpires]
        exact hx.trans (hkeeps rec hi hrec)
    · by_cases hexpired : rec.expiresAt < now
      · exact .inr (hx.trans_lt hexpired)
      · refine .inl ⟨rec, ?_, hx⟩
        rw [OrderedMap.lookup_set_of_ne _ _ hi, lookup_liveRecords_of_ne hi, hrec,
          Option.filter_some, if_pos (by simpa using hexpired)]
  · exact .inr (hlt.trans_le hle)

/-- A step of node `j` keeps what is recorded for node `i`, unless the coordinator serves the
`leave` of `i` itself. -/
theorem ExpiryRecorded.step (h : ExpiryRecorded coord i x)
    (hstep : step opts cfg j coord n a = some (coord', n', evs))
    (hclock : readsForward coord.clock a = true) (hlowers : lowersExpiry coord j n a = false)
    (hnode : ∀ beat ∈ n.beats, beat.report.nodeId = j) (hleave : j = i → a ≠ .leave) :
    ExpiryRecorded coord' i x := by
  rcases step_coord hstep with rfl | ⟨now, hread, rfl⟩ | ⟨rfl, rfl⟩ |
    ⟨b, now, beat, state, grant, rfl, hbeat, -, happly, rfl⟩
  · exact h
  · refine h.tick ?_
    rcases hread with rfl | rfl
    · simpa [readsForward] using hclock
    · simpa [readsForward] using hclock
  · refine h.imp_left ?_
    rintro ⟨rec, hrec, hx⟩
    have hne : j ≠ i := fun heq => hleave heq rfl
    exact ⟨rec, by rw [OrderedMap.lookup_erase_of_ne _ hne, hrec], hx⟩
  · obtain rfl : (applyHeartbeat opts coord.records beat.report now).1 = state := by rw [happly]
    refine h.process (by simpa [readsForward] using hclock) fun rec hid hrec => ?_
    obtain rfl : j = i := (hnode beat (List.mem_of_getElem? hbeat)).symm.trans hid
    simpa [lowersExpiry, hbeat, hrec, not_lt] using hlowers

/-! ### The guard's side of a step -/

theorem Covered.new (cfg : Config) (coord : Coordinator ι) (i : ι) :
    Covered cfg coord i ⟨.new cfg, [], false⟩ where
  nodeId := by rintro beat ⟨⟩
  leaving := by rintro ⟨⟩
  cold := fun _ hclosed => if_pos hclosed
  lease := by rintro - x ⟨⟩
  reply := by rintro - beat ⟨⟩

/-- The coordinator may change where it keeps what is recorded for the node. -/
theorem Covered.mono (h : Covered cfg coord i n)
    (hrecorded : n.guard.closed = false →
      ∀ x, ExpiryRecorded coord i x → ExpiryRecorded coord' i x) :
    Covered cfg coord' i n where
  nodeId := h.nodeId
  leaving := h.leaving
  cold := h.cold
  lease hopen x hx := hrecorded hopen x (h.lease hopen x hx)
  reply hopen beat hmem hgrant hawaited :=
    hrecorded hopen _ (h.reply hopen beat hmem hgrant hawaited)

/-- The guard may change but for its lease, as long as a guard without a lease gains no share. -/
theorem Covered.setGuard (h : Covered cfg coord i n) {g : Guard}
    (hclosed : g.closed = n.guard.closed) (hlease : g.leaseExpiresAt = n.guard.leaseExpiresAt)
    (hshare : g.share = n.guard.share ∨ (cfg.failClosed = true → g.share = 0)) :
    Covered cfg coord i (n.setGuard g) where
  nodeId := h.nodeId
  leaving hl := hclosed.trans (h.leaving hl)
  cold hnone hfail := by
    rcases hshare with hsame | hzero
    · exact hsame.trans (h.cold (hlease.symm.trans hnone) hfail)
    · exact hzero hfail
  lease hopen x hx := h.lease (hclosed.symm.trans hopen) x (hlease.symm.trans hx)
  reply hopen := h.reply (hclosed.symm.trans hopen)

/-- A heartbeat may move on to one whose reply, if awaited, has its expiry recorded. -/
theorem Covered.setBeat (h : Covered cfg coord i n) {b : ℕ} {beat beat' : Beat ι}
    (hbeat : n.beats[b]? = some beat) (hreport : beat'.report = beat.report)
    (hreply : n.guard.closed = false → beat'.awaited = true →
      ExpiryRecorded coord i beat.report.expiresAt) : Covered cfg coord i (n.setBeat b beat') where
  nodeId beat₁ hmem := by
    rcases List.mem_or_eq_of_mem_set hmem with hold | rfl
    · exact h.nodeId beat₁ hold
    · rw [hreport]
      exact h.nodeId beat (List.mem_of_getElem? hbeat)
  leaving := h.leaving
  cold := h.cold
  lease := h.lease
  reply hopen beat₁ hmem hgrant hawaited := by
    rcases List.mem_or_eq_of_mem_set hmem with hold | rfl
    · exact h.reply hopen beat₁ hold hgrant hawaited
    · rw [hreport]
      exact hreply hopen hawaited

/-- A reply that lands makes its own expiry the guard's. -/
theorem Covered.applyGrant (h : Covered cfg coord i n) {report : Report ι}
    (hexpiry : n.guard.closed = false → ExpiryRecorded coord i report.expiresAt) (grant : Grant) :
    Covered cfg coord i (n.setGuard (applyGrant n.guard report grant)) := by
  have hlease := applyGrant_leaseExpiresAt n.guard report grant
  have hclosed := applyGrant_closed n.guard report grant
  refine ⟨h.nodeId, fun hl => hclosed.trans (h.leaving hl), fun hnone => ?_,
    fun hopen x hx => ?_, fun hopen => h.reply (hclosed.symm.trans hopen)⟩
  · cases hlease.symm.trans hnone
  · obtain rfl := Option.some.inj (hlease.symm.trans hx)
    exact hexpiry (hclosed.symm.trans hopen)

/-- **Every step keeps the expiries of its node covered.** -/
theorem Covered.step (h : Covered cfg coord i n)
    (hstep : step opts cfg i coord n a = some (coord', n', evs))
    (hclock : readsForward coord.clock a = true) (hlowers : lowersExpiry coord i n a = false) :
    Covered cfg coord' i n' := by
  have hrecorded : a ≠ .leave → ∀ x, ExpiryRecorded coord i x → ExpiryRecorded coord' i x :=
    fun hne x hx => hx.step hstep hclock hlowers h.nodeId fun _ => hne
  cases a with
  | acquire now =>
    cases hstep
    obtain ⟨l, hg, -⟩ := acquire_fst cfg n.guard now
    rw [hg]
    exact (h.mono fun _ => hrecorded (by simp)).setGuard rfl rfl (.inl rfl)
  | release =>
    obtain ⟨rfl, rfl⟩ := release_eq_some hstep
    exact h.setGuard rfl rfl (.inl rfl)
  | adapt limit probeLimit =>
    cases hstep
    exact h.setGuard rfl rfl (.inl rfl)
  | send now =>
    cases hstep
    have hmono := h.mono fun _ => hrecorded (by simp)
    have hset := hmono.setGuard (g := (sendHeartbeat cfg i n.guard now).1) rfl rfl (.inl rfl)
    refine ⟨fun beat hmem => ?_, hset.leaving, hset.cold, hset.lease,
      fun hopen beat hmem hgrant => ?_⟩
    · rcases List.mem_append.mp hmem with hold | hnew
      · exact hset.nodeId beat hold
      · obtain rfl := List.mem_singleton.mp hnew
        rfl
    · rcases List.mem_append.mp hmem with hold | hnew
      · exact hset.reply hopen beat hold hgrant
      · obtain rfl := List.mem_singleton.mp hnew
        cases hgrant
  | process b now =>
    have hmono : Covered cfg coord' i n := h.mono fun _ => hrecorded (by simp)
    obtain ⟨beat, state, grant, hbeat, -, happly, rfl, rfl⟩ := process_eq_some hstep
    refine hmono.setBeat hbeat rfl fun _ _ => .inl ?_
    obtain ⟨rec, hrecords, hexpires⟩ := applyHeartbeat_records opts coord.records beat.report now
    have hid := h.nodeId beat (List.mem_of_getElem? hbeat)
    rw [happly] at hrecords
    refine ⟨rec, ?_, hexpires.ge⟩
    show state.lookup i = some rec
    rw [show state = _ from hrecords, ← hid, OrderedMap.lookup_set_self]
  | deliver b =>
    obtain ⟨rfl, beat, grant, hbeat, hgrant, hawaited, rfl⟩ := deliver_eq_some hstep
    have hexpiry : n.guard.closed = false → ExpiryRecorded coord' i beat.report.expiresAt :=
      fun hopen => h.reply hopen beat (List.mem_of_getElem? hbeat) (by simp [hgrant]) hawaited
    exact (h.applyGrant hexpiry grant).setBeat hbeat rfl (by simp)
  | fail b =>
    obtain ⟨rfl, beat, hbeat, -, rfl⟩ := fail_eq_some hstep
    have hset : Covered cfg coord' i (n.setGuard (outage cfg n.guard beat.report)) := by
      unfold outage
      split
      · exact h
      · exact h.setGuard rfl rfl (.inr fun hfail => if_pos hfail)
    exact hset.setBeat hbeat rfl (by simp)
  | close =>
    cases hstep
    exact ⟨h.nodeId, fun _ => rfl, h.cold, by simp [close], by simp [close]⟩
  | leave =>
    obtain ⟨hleaving, rfl, rfl⟩ := leave_eq_some hstep
    have hclosed := h.leaving hleaving
    exact ⟨h.nodeId, by simp, h.cold, fun hopen => absurd (hopen.symm.trans hclosed) (by simp),
      fun hopen => absurd (hopen.symm.trans hclosed) (by simp)⟩

end Step

/-! ### Runs -/

section Fleet

variable {opts : HeartbeatOptions} {cfg : ι → Config} {clock : ℚ}

theorem covered_of_run {log : List (ι × Event)} {s : Parties ι (Coordinator ι) (Node ι)}
    (hrun : (fleet opts cfg).Run (FenceStep cfg) (start cfg clock) log s) (i : ι) :
    Covered (cfg i) s.shared i (s.party i) := by
  refine (Parties.run_each (S := fun _ => True) (I := fun i coord n => Covered (cfg i) coord i n)
    trivial (fun i => Covered.new (cfg i) _ i) ?_ hrun).2 i
  rintro s j a coord' n' evs - hinv ⟨hclock, hlowers, -⟩ hstep
  refine ⟨trivial, (hinv j).step hstep hclock hlowers, fun i hij => ?_⟩
  exact (hinv i).mono fun _ x hx =>
    hx.step hstep hclock hlowers (hinv j).nodeId fun heq => absurd heq.symm hij

/-- **A self-fencing guard admits only before its recorded expiry.** In every run whose steps all
meet the conditions, whatever the delays and the order of heartbeats and replies: a guard that
admits at `now` has a record at the coordinator, of an expiry after `now`. -/
theorem admits_before_recorded_expiry {log : List (ι × Event)}
    {s : Parties ι (Coordinator ι) (Node ι)}
    (hrun : (fleet opts cfg).Run (FenceStep cfg) (start cfg clock) log s) {i : ι} {now : ℚ}
    (hfence : (cfg i).selfFence = true) (hok : FenceStep cfg s (i, .acquire now))
    (hadmits : (acquire (cfg i) (s.party i).guard now).2 = true) :
    ∃ rec, s.shared.records.lookup i = some rec ∧ now < rec.expiresAt := by
  have hcovered := covered_of_run hrun i
  obtain ⟨hopen, hnotFenced, hroom⟩ := acquire_admits hadmits
  have hmargin := (cfg i).margin_pos hfence
  obtain ⟨hclock, -, hleased⟩ := hok
  have hclock : s.shared.clock ≤ now := by simpa [SharedClock, readsForward] using hclock
  cases hlease : (s.party i).guard.leaseExpiresAt with
  | none =>
    have hfail : (cfg i).failClosed = true := by simpa [admitsUnleased, hlease] using hleased
    have hshare := hcovered.cold hlease hfail
    omega
  | some x =>
    have hlt : now + (cfg i).fenceSafetyMargin < x := by
      simpa [isFenced, hfence, hlease] using hnotFenced
    rcases hcovered.lease hopen x hlease with ⟨rec, hrec, hx⟩ | hpassed
    · exact ⟨rec, hrec, by linarith⟩
    · linarith

end Fleet

/-! ### The conditions are needed -/

/-- A node heartbeats at 0 and its grant lands. -/
def oneBeat : List (Bool × Act) := [(true, .send 0), (true, .process 0 10), (true, .deliver 0)]

theorem admits_before_recorded_expiry_one_beat :
    ∃ rec, (((fleet (equalSplit true) fun _ : Bool => limitFour).exec
      (start (fun _ => limitFour) 0) oneBeat).get (by decide +kernel)).1.shared.records.lookup true
        = some rec ∧ 1400 < rec.expiresAt :=
  admits_before_recorded_expiry
    (run_of_isSome (by decide +kernel) (by decide +kernel)) rfl (by decide +kernel)
    (by decide +kernel)

/-- Heartbeats sent at 0 and 1000 are processed in the other order. -/
def staleBeat : List (Unit × Act) :=
  [((), .send 0), ((), .send 1000), ((), .process 1 1010), ((), .deliver 1), ((), .process 0 1020)]

/-- **A stale heartbeat lowers the recorded expiry.** The guard admits at 2400, before the fence of
its lease until 3000, while the coordinator records an expiry of 2000. -/
theorem stale_heartbeat_lowers_expiry :
    ¬ ∀ (log : List (Unit × Event)) (s : Parties Unit (Coordinator Unit) (Node Unit)),
      (fleet (equalSplit true) fun _ : Unit => limitFour).Run SharedClock
        (start (fun _ => limitFour) 0) log s → ∀ now, s.shared.clock ≤ now →
          (acquire limitFour (s.party ()).guard now).2 = true →
            ∃ rec, s.shared.records.lookup () = some rec ∧ now < rec.expiresAt := by
  intro h
  have hrun := run_of_isSome (m := fleet (equalSplit true) fun _ : Unit => limitFour)
    (p := SharedClock) (s := start (fun _ => limitFour) 0) (l := staleBeat) (by decide +kernel)
    (by decide +kernel)
  obtain ⟨rec, hrec, hlt⟩ := h _ _ hrun 2400 (by decide +kernel) (by decide +kernel)
  have hexpires : ((((fleet (equalSplit true) fun _ : Unit => limitFour).exec
      (start (fun _ => limitFour) 0) staleBeat).get (by decide +kernel)).1.shared.records.lookup
        ()).map NodeRecord.expiresAt = some 2000 := by decide +kernel
  rw [hrec] at hexpires
  have heq : rec.expiresAt = 2000 := Option.some.inj hexpires
  rw [heq] at hlt
  exact absurd hlt (by norm_num)

end ThrottleKit.Concurrency
