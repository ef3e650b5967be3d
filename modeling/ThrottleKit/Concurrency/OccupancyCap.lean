import ThrottleKit.Concurrency.ConstantLimit

/-!
# The occupancy cap

Without acknowledged handoff the coordinator grants a node what the others neither hold as a share
nor report in flight. When a heartbeat is one operation of its node, which reports what is in flight
at that moment and admits nothing until it has applied the grant, a node never has more in flight
than its record shows, so neither the shares nor what is in flight exceed the limit.

That is so as long as a node that the coordinator has no record of has nothing in flight when it
heartbeats. A lease that expires is granted to the others while the node may still be at work, and
when it comes back its requests count on top (`rejoin_exceeds_limit`).

## Main definitions

* `Held` — what ties a node to its record
* `AtOnce`, `OccupancyStep` — the conditions on a step

## Main results

* `Held.step` — every step keeps a node within its record
* `occupancy_le_limit` — the bounds
-/

namespace ThrottleKit.Concurrency

open Machine

variable {ι : Type} [LinearOrder ι]

/-- A reply is on its way to the guard. -/
def awaitsReply (n : Node ι) : Bool := n.beats.any fun beat => beat.grant.isSome && beat.awaited

/-- Heartbeat `beat` is the last one sent, is awaited, and reports what is in flight now. -/
def isCurrent (n : Node ι) (beat : Beat ι) : Bool :=
  beat.awaited && beat.report.seqNo = n.guard.heartbeatSeq &&
    beat.report.inflight = n.guard.limiter.inflight

/-- The step fits a fleet of limit `L` in which a heartbeat is one operation of its node: it is
processed while current, the node admits nothing and has no other processed until its reply has
landed, and it throws only where that closes the guard. -/
def atOnce (L : ℤ) (cfg : Config) (n : Node ι) : Act → Bool
  | .process b _ => !awaitsReply n && (n.beats[b]?).all (isCurrent n)
  | .acquire _ => !awaitsReply n
  | .fail _ => cfg.failClosed
  | .adapt limit _ => limit = L
  | .release | .send _ | .deliver _ | .close | .leave => true

/-- A heartbeat that creates its node's record comes from a node with requests in flight. -/
def joinsBusy (coord : Coordinator ι) (i : ι) (n : Node ι) : Act → Bool
  | .process _ _ => (coord.records.lookup i).isNone && 0 < n.guard.limiter.inflight
  | _ => false

/-- Heartbeats are operations of their nodes. -/
def AtOnce (L : ℤ) (cfg : ι → Config) (s : Parties ι (Coordinator ι) (Node ι)) (a : ι × Act) :
    Prop :=
  atOnce L (cfg a.1) (s.party a.1) a.2 = true

/-- The conditions on a step: heartbeats are operations of their nodes, and those that create a
record come from a node with nothing in flight. -/
def OccupancyStep (L : ℤ) (cfg : ι → Config) (s : Parties ι (Coordinator ι) (Node ι))
    (a : ι × Act) : Prop :=
  AtOnce L cfg s a ∧ joinsBusy s.shared a.1 (s.party a.1) a.2 = false

instance (L : ℤ) (cfg : ι → Config) (s : Parties ι (Coordinator ι) (Node ι)) (a : ι × Act) :
    Decidable (AtOnce L cfg s a) := inferInstanceAs (Decidable (_ = _))

instance (L : ℤ) (cfg : ι → Config) (s : Parties ι (Coordinator ι) (Node ι)) (a : ι × Act) :
    Decidable (OccupancyStep L cfg s a) := inferInstanceAs (Decidable (_ ∧ _))

/-- What ties a node to its record: it has no more in flight than the record shows, and its share is
at most the recorded one, unless the reply that makes it so is on its way. -/
structure Held (n : Node ι) (rec : NodeRecord) : Prop where
  share_nonneg : 0 ≤ rec.share
  inflight : (n.guard.limiter.inflight : ℤ) ≤ max rec.share rec.inflight
  share : n.guard.share ≤ rec.share ∨ ∃ beat ∈ n.beats, beat.grant.isSome ∧ beat.awaited = true ∧
    n.guard.appliedSeq ≤ beat.report.seqNo
  reply : ∀ beat ∈ n.beats, beat.awaited = true → ∀ grant, beat.grant = some grant →
    grant.share ≤ rec.share

section Step

variable {opts : HeartbeatOptions} {cfg : Config} {coord coord' : Coordinator ι} {i : ι}
  {n n' : Node ι} {rec : NodeRecord} {a : Act} {evs : List Event} {L : ℤ}

omit [LinearOrder ι] in
theorem not_awaitsReply (h : awaitsReply n = false) {beat : Beat ι} (hmem : beat ∈ n.beats) :
    ¬ (beat.grant.isSome ∧ beat.awaited = true) := by
  simpa using List.any_eq_false.mp h beat hmem

omit [LinearOrder ι] in
/-- With no reply on its way, the share is at most the recorded one. -/
theorem Held.share_le (h : Held n rec) (hquiet : awaitsReply n = false) :
    n.guard.share ≤ rec.share := by
  rcases h.share with hle | ⟨beat, hmem, hgrant, hawaited, -⟩
  · exact hle
  · exact absurd ⟨hgrant, hawaited⟩ (not_awaitsReply hquiet hmem)

omit [LinearOrder ι] in
/-- A heartbeat is no longer awaited; what the guard's share becomes is at most the recorded one, or
the guard goes by the same heartbeats as before. -/
theorem Held.settle (h : Held n rec) {b : ℕ} {beat : Beat ι} (hbeat : n.beats[b]? = some beat)
    {g : Guard} (hlimiter : g.limiter = n.guard.limiter)
    (hshare : g.share ≤ rec.share ∨ (g.share = n.guard.share ∧ g.appliedSeq = n.guard.appliedSeq ∧
      beat.report.seqNo < n.guard.appliedSeq)) :
    Held ((n.setGuard g).setBeat b { beat with awaited := false }) rec where
  share_nonneg := h.share_nonneg
  inflight := by
    show (g.limiter.inflight : ℤ) ≤ _
    rw [hlimiter]
    exact h.inflight
  share := by
    rcases hshare with hle | ⟨hsame, happlied, hold⟩
    · exact .inl hle
    · refine h.share.imp (fun hle => hsame.trans_le hle) ?_
      rintro ⟨beat₁, hmem, hgrant, hawaited, hfresh⟩
      refine ⟨beat₁, ?_, hgrant, hawaited, happlied.trans_le hfresh⟩
      -- the heartbeat that settles is older than what the guard goes by
      obtain ⟨k, hk⟩ := List.getElem?_of_mem hmem
      have hne : b ≠ k := by
        rintro rfl
        obtain rfl := Option.some.inj (hbeat.symm.trans hk)
        omega
      refine List.mem_of_getElem? (i := k) ?_
      show (n.beats.set b _)[k]? = some beat₁
      rw [List.getElem?_set_ne hne, hk]
  reply beat₁ hmem hawaited := by
    rcases List.mem_or_eq_of_mem_set hmem with hold | rfl
    · exact h.reply beat₁ hold hawaited
    · cases hawaited

omit [LinearOrder ι] in
/-- The limiter may count. -/
theorem Held.setLimiter (h : Held n rec) {l : Limiter}
    (hinflight : (l.inflight : ℤ) ≤ max rec.share rec.inflight) :
    Held (n.setGuard { n.guard with limiter := l }) rec :=
  ⟨h.share_nonneg, hinflight, h.share, h.reply⟩

omit [LinearOrder ι] in
/-- A heartbeat that is one operation ties the node to the record it leaves. -/
theorem held_process {beat : Beat ι} {b : ℕ} (hbeat : n.beats[b]? = some beat)
    (hquiet : awaitsReply n = false) (hcurrent : isCurrent n beat = true)
    (hwired : Wired L i n) (hhandoff : opts.handoff = false) (prior : Option NodeRecord) {share : ℤ}
    (hshare : 0 ≤ share) {grant : Grant}
    (hgrant : grant.share = (afterGrant opts prior beat.report share).share) :
    Held (n.setBeat b { beat with grant := some grant })
      (afterGrant opts prior beat.report share) := by
  obtain ⟨⟨hawaited, hseq⟩, hinflight⟩ : (beat.awaited = true ∧
      beat.report.seqNo = n.guard.heartbeatSeq) ∧
        beat.report.inflight = n.guard.limiter.inflight := by
    simpa [isCurrent] using hcurrent
  have hself : afterGrant opts prior beat.report share
      = { upserted opts prior beat.report with share := share } := by
    rw [afterGrant, hhandoff]
    rfl
  have hreported : (upserted opts prior beat.report).inflight = n.guard.limiter.inflight := by
    rw [← hinflight, upserted, isFresh, hhandoff]
    rfl
  obtain ⟨hlt, -⟩ := List.getElem?_eq_some_iff.mp hbeat
  rw [hself] at hgrant ⊢
  refine ⟨hshare, ?_, .inr ⟨{ beat with grant := some grant }, ?_, rfl, hawaited, ?_⟩,
    fun beat₁ hmem hawaited₁ grant₁ hgrant₁ => ?_⟩
  · show (n.guard.limiter.inflight : ℤ) ≤ max share (upserted opts prior beat.report).inflight
    rw [hreported]
    exact le_max_right _ _
  · exact List.mem_set hlt _
  · exact hwired.applied_le.trans_eq hseq.symm
  · rcases List.mem_or_eq_of_mem_set hmem with hold | rfl
    · exact absurd ⟨by simp [hgrant₁], hawaited₁⟩ (not_awaitsReply hquiet hold)
    · obtain rfl := Option.some.inj hgrant₁
      exact hgrant.le

/-- **Every step keeps a node within its record.** -/
theorem Held.step (h : ∀ rec, coord.records.lookup i = some rec → Held n rec)
    (hwithin : Within opts L coord.records) (hwired : Wired L i n) (hhandoff : opts.handoff = false)
    (hstep : step opts cfg i coord n a = some (coord', n', evs))
    (hatOnce : atOnce L cfg n a = true) :
    ∀ rec, coord'.records.lookup i = some rec → Held n' rec := by
  cases a with
  | acquire now =>
    cases hstep
    intro rec hrec
    have hheld := h rec hrec
    have hquiet : awaitsReply n = false := by simpa [atOnce] using hatOnce
    have hle := hheld.share_le hquiet
    have hinflight := hheld.inflight
    obtain ⟨l, hg, -, hcount⟩ := acquire_fst cfg n.guard now
    rw [hg]
    refine hheld.setLimiter ?_
    rcases hcount with hsame | ⟨hmore, hlt⟩ <;> omega
  | release =>
    obtain ⟨rfl, rfl⟩ := release_eq_some hstep
    intro rec hrec
    have hinflight := (h rec hrec).inflight
    exact (h rec hrec).setLimiter (by dsimp only; omega)
  | adapt limit probeLimit =>
    cases hstep
    exact fun rec hrec => (h rec hrec).setLimiter (h rec hrec).inflight
  | send now =>
    cases hstep
    intro rec hrec
    have hheld := h rec hrec
    refine ⟨hheld.share_nonneg, hheld.inflight, hheld.share.imp_right ?_,
      fun beat hmem hawaited grant hgrant => ?_⟩
    · rintro ⟨beat, hmem, hreply⟩
      exact ⟨beat, List.mem_append_left _ hmem, hreply⟩
    · rcases List.mem_append.mp hmem with hold | hnew
      · exact hheld.reply beat hold hawaited grant hgrant
      · obtain rfl := List.mem_singleton.mp hnew
        cases hgrant
  | process b now =>
    obtain ⟨beat, state, grant, hbeat, -, happly, rfl, rfl⟩ := process_eq_some hstep
    have hmem := List.mem_of_getElem? hbeat
    obtain ⟨hquiet, hcurrent⟩ : awaitsReply n = false ∧ isCurrent n beat = true := by
      simpa [atOnce, hbeat] using hatOnce
    obtain ⟨share, hshare, -, hrecords, hgrant, -⟩ :=
      applyHeartbeat_spec happly hwithin.limit (hwired.reported beat hmem)
    intro rec hrec
    rw [show (⟨state, now⟩ : Coordinator ι).records = _ from hrecords, ← hwired.nodeId beat hmem,
      OrderedMap.lookup_set_self] at hrec
    obtain rfl := Option.some.inj hrec
    exact held_process hbeat hquiet hcurrent hwired hhandoff _ hshare hgrant
  | deliver b =>
    obtain ⟨rfl, beat, grant, hbeat, hgrant, hawaited, rfl⟩ := deliver_eq_some hstep
    intro rec hrec
    have hheld := h rec hrec
    rcases lt_or_ge beat.report.seqNo n.guard.appliedSeq with hlt | hge
    · rw [applyGrant_of_lt hlt]
      exact hheld.settle hbeat rfl (.inr ⟨rfl, rfl, hlt⟩)
    · rw [applyGrant_of_le hge]
      exact hheld.settle hbeat rfl
        (.inl (hheld.reply beat (List.mem_of_getElem? hbeat) hawaited grant hgrant))
  | fail b =>
    obtain ⟨rfl, beat, hbeat, -, rfl⟩ := fail_eq_some hstep
    have hfail : cfg.failClosed = true := hatOnce
    intro rec hrec
    have hheld := h rec hrec
    rcases lt_or_ge beat.report.seqNo n.guard.appliedSeq with hlt | hge
    · rw [outage_of_lt hlt]
      exact hheld.settle hbeat rfl (.inr ⟨rfl, rfl, hlt⟩)
    · rw [outage_of_le hfail hge]
      exact hheld.settle hbeat rfl (.inl hheld.share_nonneg)
  | close =>
    cases hstep
    exact fun rec hrec => ⟨(h rec hrec).share_nonneg, (h rec hrec).inflight, (h rec hrec).share,
      (h rec hrec).reply⟩
  | leave =>
    obtain ⟨-, rfl, rfl⟩ := leave_eq_some hstep
    intro rec hrec
    rw [OrderedMap.lookup_erase_self] at hrec
    cases hrec

/-- A heartbeat that is one operation occupies no more than its grant, or what its record did. -/
theorem occupied_afterGrant_le (h : ∀ rec, coord.records.lookup i = some rec → Held n rec)
    (hhandoff : opts.handoff = false) {beat : Beat ι} (hcurrent : isCurrent n beat = true)
    (hjoins : coord.records.lookup i = none → n.guard.limiter.inflight = 0) {share : ℤ}
    (hshare : 0 ≤ share) :
    0 ≤ occupied opts.handoff (afterGrant opts (coord.records.lookup i) beat.report share) ∧
      occupied opts.handoff (afterGrant opts (coord.records.lookup i) beat.report share)
        ≤ max share ((coord.records.lookup i).elim 0 (occupied opts.handoff)) := by
  obtain ⟨-, hinflight⟩ : _ ∧ beat.report.inflight = n.guard.limiter.inflight := by
    simpa [isCurrent] using hcurrent
  have hocc : occupied opts.handoff (afterGrant opts (coord.records.lookup i) beat.report share)
      = max share n.guard.limiter.inflight := by
    rw [← hinflight, hhandoff, afterGrant, hhandoff, occupied, upserted, isFresh, hhandoff]
    rfl
  rw [hocc]
  cases hprior : coord.records.lookup i with
  | none =>
    have hzero := hjoins hprior
    constructor <;> simp [hzero, hshare]
  | some rec =>
    have hle := (h rec hprior).inflight
    have hrec : occupied opts.handoff rec = max rec.share rec.inflight := by
      rw [hhandoff]
      rfl
    rw [Option.elim_some, hrec]
    constructor <;> omega

end Step

/-! ### Runs -/

section Fleet

variable {opts : HeartbeatOptions} {cfg : ι → Config} {L : ℤ}
  {s₀ s : Parties ι (Coordinator ι) (Node ι)} {log : List (ι × Event)}

theorem held_of_run (hhandoff : opts.handoff = false) (hstart : Accounted L s₀)
    (hrun : (fleet opts cfg).Run (OccupancyStep L cfg) s₀ log s) :
    Within opts L s.shared.records ∧ ∀ i, Wired L i (s.party i) ∧
      ∀ rec, s.shared.records.lookup i = some rec → Held (s.party i) rec := by
  refine Parties.run_each (S := fun coord => Within opts L coord.records)
    (I := fun i coord n => Wired L i n ∧ ∀ rec, coord.records.lookup i = some rec → Held n rec)
    (hstart.within opts) (fun i => ⟨hstart.wired i, fun rec hrec => ?_⟩) ?_ hrun
  · obtain ⟨-, hinflight, hshare, -⟩ := hstart.recorded i rec hrec
    obtain ⟨hbeats, -⟩ := hstart.unbeaten i
    refine ⟨hshare.ge, ?_, .inl ?_, ?_⟩
    · rw [hinflight]
      exact le_max_right _ _
    · rw [hshare, hstart.unshared i rec hrec]
    · simp [hbeats]
  · rintro s i a coord' n' evs hwithin hinv ⟨hatOnce, hjoins⟩ hstep
    obtain ⟨hwired, hheld⟩ := hinv i
    have hkeeps : keepsLimit L a = true := by
      cases a <;> first | rfl | exact hatOnce
    refine ⟨hwithin.step hwired hstep ?_, ⟨hwired.step hstep hkeeps,
      Held.step hheld hwithin hwired hhandoff hstep hatOnce⟩, fun j hji => ⟨(hinv j).1,
      fun rec hrec => (hinv j).2 rec (lookup_step_of_ne hwired.nodeId hstep hji.symm hrec)⟩⟩
    rintro b now beat share rfl hbeat hshare
    obtain ⟨-, hcurrent⟩ : _ ∧ isCurrent (s.party i) beat = true := by
      simpa [AtOnce, atOnce, hbeat] using hatOnce
    refine occupied_afterGrant_le hheld hhandoff hcurrent (fun hnone => ?_) hshare
    simpa [joinsBusy, hnone] using hjoins

/-- **The occupancy cap keeps the fleet within the limit.** In every run whose steps all meet the
conditions, for any number of nodes, aggregate and allocation: the shares granted to the live nodes
are at most `L` together, so are those they enforce once their replies have landed, and so are the
requests they have in flight. -/
theorem occupancy_le_limit (hhandoff : opts.handoff = false) (hstart : Accounted L s₀)
    (hrun : (fleet opts cfg).Run (OccupancyStep L cfg) s₀ log s) :
    s.shared.records.sum (fun _ rec => rec.share) ≤ L ∧
    ((∀ i, awaitsReply (s.party i) = false) →
      s.shared.records.sum (fun i _ => (s.party i).guard.share) ≤ L) ∧
    s.shared.records.sum (fun i _ => ((s.party i).guard.limiter.inflight : ℤ)) ≤ L := by
  obtain ⟨hwithin, hheld⟩ := held_of_run hhandoff hstart hrun
  have hocc : ∀ rec, occupied opts.handoff rec = max rec.share rec.inflight := by
    intro rec
    rw [hhandoff]
    rfl
  refine ⟨?_, fun hquiet => ?_, ?_⟩
  all_goals refine le_trans (OrderedMap.sum_le_sum fun i rec hrec => ?_) hwithin.total
  · rw [hocc]
    exact le_max_left _ _
  · rw [hocc]
    exact (((hheld i).2 rec hrec).share_le (hquiet i)).trans (le_max_left _ _)
  · rw [hocc]
    exact ((hheld i).2 rec hrec).inflight

end Fleet

/-! ### The conditions are needed -/

/-- A heartbeat of `i`, sent at `t` as its number `b`, that is processed and lands. -/
def heartbeat (i : Bool) (b : ℕ) (t : ℚ) : List (Bool × Act) :=
  [(i, .send t), (i, .process b (t + 10)), (i, .deliver b)]

/-- Two nodes share the limit: the one drains while the other ramps up. -/
def drains : List (Bool × Act) :=
  heartbeat true 0 0 ++ List.replicate 3 (true, .acquire 20) ++ heartbeat false 0 100 ++
    heartbeat true 1 200 ++ heartbeat false 1 300 ++ [(false, .acquire 400)]

theorem occupancy_le_limit_two_nodes :
    (((fleet (equalSplit false) fun _ : Bool => limitFour).exec (start (fun _ => limitFour) 0)
      drains).get (by decide +kernel)).1.shared.records.sum (fun _ rec => rec.share) ≤ 4 :=
  (occupancy_le_limit rfl (accounted_start (L := 4) (by norm_num) (fun _ => rfl) 0)
    (run_of_isSome (by decide +kernel) (by decide +kernel))).1

/-- A node's lease expires with four requests in flight, another node is granted the limit, and the
first one heartbeats again. -/
def rejoinsBusy : List (Bool × Act) :=
  heartbeat true 0 0 ++ List.replicate 4 (true, .acquire 20) ++ heartbeat false 0 3000 ++
    List.replicate 4 (false, .acquire 3020) ++ heartbeat true 1 3030

/-- **A node that rejoins with requests in flight exceeds the limit.** Two live nodes have eight
requests in flight, of which the limit is four. -/
theorem rejoin_exceeds_limit :
    ¬ ∀ (log : List (Bool × Event)) (s : Parties Bool (Coordinator Bool) (Node Bool)),
      (fleet (equalSplit false) fun _ : Bool => limitFour).Run (AtOnce 4 fun _ => limitFour)
        (start (fun _ => limitFour) 0) log s →
          s.shared.records.sum (fun _ rec => rec.share) ≤ 4 ∧
            s.shared.records.sum (fun i _ => ((s.party i).guard.limiter.inflight : ℤ)) ≤ 4 := by
  intro h
  have hrun := run_of_isSome (m := fleet (equalSplit false) fun _ : Bool => limitFour)
    (p := AtOnce 4 fun _ => limitFour) (s := start (fun _ => limitFour) 0) (l := rejoinsBusy)
    (by decide +kernel) (by decide +kernel)
  exact absurd (h _ _ hrun).2 (by decide +kernel)

end ThrottleKit.Concurrency
