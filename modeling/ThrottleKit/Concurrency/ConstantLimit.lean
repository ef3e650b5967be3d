import ThrottleKit.Concurrency.Distributed

/-!
# Fleets of a constant limit

The bounds on what a fleet has in flight are stated for a limit `L` that every node infers and
reports throughout. A run may start with requests in flight, as long as the coordinator has a record
of each and they fit into the limit.

## Main definitions

* `Accounted` — the states a run may start from
* `keepsLimit` — a step that leaves the limit alone
* `Wired` — a node of limit `L` and the heartbeats it has sent
* `Within` — records that occupy no more than `L`

## Main results

* `Wired.step` — every step that leaves the limit alone keeps a node wired
* `Within.step` — when a step keeps the records within the limit
-/

namespace ThrottleKit.Concurrency

variable {ι : Type} [LinearOrder ι]

/-- The guards infer the limit `L` and have not heartbeaten yet; what is in flight at a node with a
record is recorded, and with no share granted it is within the limit. -/
structure Accounted (L : ℤ) (s : Parties ι (Coordinator ι) (Node ι)) : Prop where
  limit : ∀ i, (s.party i).guard.limiter.limit = L
  unbeaten : ∀ i, (s.party i).beats = [] ∧ (s.party i).guard.heartbeatSeq = 0 ∧
    (s.party i).guard.appliedSeq = 0 ∧ (s.party i).guard.appliedGen = 0
  unshared : ∀ i rec, s.shared.records.lookup i = some rec → (s.party i).guard.share = 0
  recorded : ∀ i rec, s.shared.records.lookup i = some rec → rec.lLocal = L ∧
    rec.inflight = (s.party i).guard.limiter.inflight ∧ rec.share = 0 ∧ rec.committedGen = 0 ∧
      rec.unackedHigh = 0
  total : s.shared.records.sum (fun _ rec => rec.inflight) ≤ L

/-- A fleet as constructed is accounted for. -/
theorem accounted_start {L : ℤ} (hL : 0 ≤ L) {cfg : ι → Config} (h : ∀ i, (cfg i).initialLimit = L)
    (clock : ℚ) : Accounted L (start cfg clock) where
  limit := h
  unbeaten _ := ⟨rfl, rfl, rfl, rfl⟩
  unshared := by rintro i rec ⟨⟩
  recorded := by rintro i rec ⟨⟩
  total := hL

/-- The step leaves the limit at `L`. -/
def keepsLimit (L : ℤ) : Act → Bool
  | .adapt limit _ => limit = L
  | _ => true

/-- A node of limit `L`, with its heartbeats numbered as it sent them. -/
structure Wired (L : ℤ) (i : ι) (n : Node ι) : Prop where
  limit : n.guard.limiter.limit = L
  applied_le : n.guard.appliedSeq ≤ n.guard.heartbeatSeq
  sent_nonneg : 0 ≤ n.guard.heartbeatSeq
  nodeId : ∀ beat ∈ n.beats, beat.report.nodeId = i
  reported : ∀ beat ∈ n.beats, beat.report.lLocal = L
  seq : ∀ beat ∈ n.beats, 0 < beat.report.seqNo ∧ beat.report.seqNo ≤ n.guard.heartbeatSeq

theorem Accounted.wired {L : ℤ} {s : Parties ι (Coordinator ι) (Node ι)} (h : Accounted L s)
    (i : ι) : Wired L i (s.party i) := by
  obtain ⟨hbeats, hsent, happlied, -⟩ := h.unbeaten i
  refine ⟨h.limit i, by omega, hsent.ge, ?_, ?_, ?_⟩ <;> simp [hbeats]

section Step

variable {opts : HeartbeatOptions} {cfg : Config} {coord coord' : Coordinator ι} {i j : ι}
  {n n' : Node ι} {a : Act} {evs : List Event} {L : ℤ}

omit [LinearOrder ι] in
/-- The guard may change but for its limit and numbering. -/
theorem Wired.setGuard (h : Wired L i n) {g : Guard} (hlimit : g.limiter.limit = L)
    (hsent : g.heartbeatSeq = n.guard.heartbeatSeq) (happlied : g.appliedSeq ≤ g.heartbeatSeq) :
    Wired L i (n.setGuard g) :=
  ⟨hlimit, happlied, h.sent_nonneg.trans_eq hsent.symm, h.nodeId, h.reported, fun beat hmem =>
    ⟨(h.seq beat hmem).1, (h.seq beat hmem).2.trans_eq hsent.symm⟩⟩

omit [LinearOrder ι] in
/-- A heartbeat may move on. -/
theorem Wired.setBeat (h : Wired L i n) {b : ℕ} {beat beat' : Beat ι}
    (hbeat : n.beats[b]? = some beat) (hreport : beat'.report = beat.report) :
    Wired L i (n.setBeat b beat') := by
  have hold : ∀ beat₁ ∈ (n.setBeat b beat').beats, ∃ beat₀ ∈ n.beats,
      beat₁.report = beat₀.report := by
    intro beat₁ hmem
    rcases List.mem_or_eq_of_mem_set hmem with hmem₀ | rfl
    · exact ⟨beat₁, hmem₀, rfl⟩
    · exact ⟨beat, List.mem_of_getElem? hbeat, hreport⟩
  refine ⟨h.limit, h.applied_le, h.sent_nonneg, fun beat₁ hmem => ?_, fun beat₁ hmem => ?_,
    fun beat₁ hmem => ?_⟩
  all_goals
    obtain ⟨beat₀, hmem₀, hsame⟩ := hold beat₁ hmem
    rw [hsame]
  · exact h.nodeId beat₀ hmem₀
  · exact h.reported beat₀ hmem₀
  · exact h.seq beat₀ hmem₀

/-- **Every step that leaves the limit alone keeps a node wired.** -/
theorem Wired.step (h : Wired L i n) (hstep : step opts cfg i coord n a = some (coord', n', evs))
    (hkeeps : keepsLimit L a = true) : Wired L i n' := by
  cases a with
  | acquire now =>
    cases hstep
    obtain ⟨l, hg, hlimit, -⟩ := acquire_fst cfg n.guard now
    rw [hg]
    exact h.setGuard (hlimit.trans h.limit) rfl h.applied_le
  | release =>
    obtain ⟨rfl, rfl⟩ := release_eq_some hstep
    exact h.setGuard h.limit rfl h.applied_le
  | adapt limit probeLimit =>
    cases hstep
    exact h.setGuard (by simpa [keepsLimit] using hkeeps) rfl h.applied_le
  | send now =>
    cases hstep
    have happlied := h.applied_le
    have hsent := h.sent_nonneg
    refine ⟨h.limit, ?_, ?_, ?_, ?_, ?_⟩
    · show n.guard.appliedSeq ≤ n.guard.heartbeatSeq + 1
      omega
    · show 0 ≤ n.guard.heartbeatSeq + 1
      omega
    all_goals
      intro beat hmem
      rcases List.mem_append.mp hmem with hold | hnew
    · exact h.nodeId beat hold
    · obtain rfl := List.mem_singleton.mp hnew
      rfl
    · exact h.reported beat hold
    · obtain rfl := List.mem_singleton.mp hnew
      exact h.limit
    · have hseq := h.seq beat hold
      exact ⟨hseq.1, hseq.2.trans (by show n.guard.heartbeatSeq ≤ n.guard.heartbeatSeq + 1; omega)⟩
    · obtain rfl := List.mem_singleton.mp hnew
      exact ⟨by show 0 < n.guard.heartbeatSeq + 1; omega, le_rfl⟩
  | process b now =>
    obtain ⟨beat, state, grant, hbeat, -, -, -, rfl⟩ := process_eq_some hstep
    exact h.setBeat hbeat rfl
  | deliver b =>
    obtain ⟨rfl, beat, grant, hbeat, -, -, rfl⟩ := deliver_eq_some hstep
    have hseq := h.seq beat (List.mem_of_getElem? hbeat)
    refine Wired.setBeat ?_ hbeat rfl
    rcases lt_or_ge beat.report.seqNo n.guard.appliedSeq with hlt | hge
    · rw [applyGrant_of_lt hlt]
      exact h.setGuard h.limit rfl h.applied_le
    · rw [applyGrant_of_le hge]
      exact h.setGuard h.limit rfl hseq.2
  | fail b =>
    obtain ⟨rfl, beat, hbeat, -, rfl⟩ := fail_eq_some hstep
    have hseq := h.seq beat (List.mem_of_getElem? hbeat)
    refine Wired.setBeat ?_ hbeat rfl
    unfold outage
    split
    · exact h
    · exact h.setGuard h.limit rfl hseq.2
  | close =>
    cases hstep
    exact ⟨h.limit, h.applied_le, h.sent_nonneg, h.nodeId, h.reported, h.seq⟩
  | leave =>
    obtain ⟨-, rfl, rfl⟩ := leave_eq_some hstep
    exact ⟨h.limit, h.applied_le, h.sent_nonneg, h.nodeId, h.reported, h.seq⟩

/-! ### The records -/

/-- What a step of node `i` does to the records of the others: each stays or goes. -/
theorem lookup_step_of_ne (hnode : ∀ beat ∈ n.beats, beat.report.nodeId = i)
    (hstep : step opts cfg i coord n a = some (coord', n', evs)) (hij : i ≠ j) {rec : NodeRecord}
    (hrec : coord'.records.lookup j = some rec) : coord.records.lookup j = some rec := by
  rcases step_coord hstep with rfl | ⟨now, -, rfl⟩ | ⟨-, rfl⟩ |
    ⟨b, now, beat, state, grant, -, hbeat, -, happly, rfl⟩
  · exact hrec
  · exact hrec
  · rwa [OrderedMap.lookup_erase_of_ne _ hij] at hrec
  · obtain ⟨rec', hrecords, -⟩ := applyHeartbeat_records opts coord.records beat.report now
    have hne : beat.report.nodeId ≠ j := (hnode beat (List.mem_of_getElem? hbeat)).trans_ne hij
    rw [happly] at hrecords
    rw [show state = _ from hrecords, OrderedMap.lookup_set_of_ne _ _ hne,
      lookup_liveRecords_of_ne hne, Option.filter_eq_some_iff] at hrec
    exact hrec.1

/-- All records report `L` and together occupy no more. -/
structure Within (opts : HeartbeatOptions) (L : ℤ) (records : Records ι) : Prop where
  limit : ∀ id rec, records.lookup id = some rec → rec.lLocal = L
  nonneg : ∀ id rec, records.lookup id = some rec → 0 ≤ occupied opts.handoff rec
  total : records.sum (fun _ rec => occupied opts.handoff rec) ≤ L

/-- **Every step keeps the records within the limit**, if a heartbeat leaves its node's record
occupying no more than the granted share, or what it did. -/
theorem Within.step (h : Within opts L coord.records) (hwired : Wired L i n)
    (hstep : step opts cfg i coord n a = some (coord', n', evs))
    (hself : ∀ b now beat share, a = .process b now → n.beats[b]? = some beat → 0 ≤ share →
      0 ≤ occupied opts.handoff (afterGrant opts (coord.records.lookup i) beat.report share) ∧
      occupied opts.handoff (afterGrant opts (coord.records.lookup i) beat.report share)
        ≤ max share ((coord.records.lookup i).elim 0 (occupied opts.handoff))) :
    Within opts L coord'.records := by
  rcases step_coord hstep with rfl | ⟨now, -, rfl⟩ | ⟨-, rfl⟩ |
    ⟨b, now, beat, state, grant, rfl, hbeat, -, happly, rfl⟩
  · exact h
  · exact h
  · have hold : ∀ id rec, (coord.records.erase i).lookup id = some rec →
        coord.records.lookup id = some rec := by
      intro id rec hrec
      rw [OrderedMap.lookup_erase] at hrec
      split at hrec
      · cases hrec
      · exact hrec
    exact ⟨fun id rec hrec => h.limit id rec (hold id rec hrec), fun id rec hrec =>
      h.nonneg id rec (hold id rec hrec), (OrderedMap.sum_filter_le _ h.nonneg).trans h.total⟩
  · have hmem := List.mem_of_getElem? hbeat
    have hreport := hwired.reported beat hmem
    obtain rfl := hwired.nodeId beat hmem
    obtain ⟨share, hshare, -, hrecords, -⟩ := applyHeartbeat_spec happly h.limit hreport
    have hlook : ∀ id rec, state.lookup id = some rec →
        rec = afterGrant opts (coord.records.lookup beat.report.nodeId) beat.report share ∨
          coord.records.lookup id = some rec := by
      intro id rec hrec
      rw [hrecords, OrderedMap.lookup_set] at hrec
      split at hrec
      · exact .inl (Option.some.inj hrec).symm
      · rename_i hne
        rw [lookup_liveRecords_of_ne hne, Option.filter_eq_some_iff] at hrec
        exact .inr hrec.1
    refine ⟨fun id rec hrec => ?_, fun id rec hrec => ?_, ?_⟩
    · rcases hlook id rec hrec with rfl | hold
      · exact (lLocal_afterGrant _ _ _ _).trans hreport
      · exact h.limit id rec hold
    · rcases hlook id rec hrec with rfl | hold
      · exact (hself b now beat share rfl hbeat hshare).1
      · exact h.nonneg id rec hold
    · exact sum_applyHeartbeat_le happly h.limit hreport h.nonneg h.total fun share hshare =>
        (hself b now beat share rfl hbeat hshare).2

end Step

theorem Accounted.within {L : ℤ} {s : Parties ι (Coordinator ι) (Node ι)} (h : Accounted L s)
    (opts : HeartbeatOptions) : Within opts L s.shared.records := by
  have hocc : ∀ id rec, s.shared.records.lookup id = some rec →
      occupied opts.handoff rec = rec.inflight ∧ 0 ≤ rec.inflight := by
    intro id rec hrec
    obtain ⟨-, hinflight, hshare, -, hhigh⟩ := h.recorded id rec hrec
    have hnn : 0 ≤ rec.inflight := by omega
    refine ⟨?_, hnn⟩
    unfold occupied
    split
    · rw [hhigh]
      exact max_eq_right hnn
    · rw [hshare]
      exact max_eq_right hnn
  refine ⟨fun id rec hrec => (h.recorded id rec hrec).1, fun id rec hrec => ?_, ?_⟩
  · rw [(hocc id rec hrec).1]
    exact (hocc id rec hrec).2
  · rw [OrderedMap.sum_congr fun id rec hrec => (hocc id rec hrec).1]
    exact h.total

end ThrottleKit.Concurrency
