import ThrottleKit.Concurrency.ConstantLimit

/-!
# Acknowledged handoff

Under acknowledged handoff the coordinator reserves for a node the largest share it granted since
the node last confirmed the current one, or what it last reported in flight. A heartbeat says which
generation its guard enforces and what is in flight under it, sampled together. From there on the
guard can only admit under that generation's share or one the coordinator has not seen confirmed, so
the reserve covers what it has in flight, however late its heartbeats and replies arrive.

The argument needs generations to move one way. They do not in two cases. The reply to a heartbeat
that was processed late carries the newest generation under an old `seq`, so an older grant of a
later `seq` can still land after it (`stale_reply_exceeds_limit`). And the generations of a node
whose record was dropped start again at zero, while its guard still confirms one from before.

## Main definitions

* `Tracks` — what the record of a node knows of it
* `HoldsNothing`, `HandoffStep` — the conditions on a step

## Main results

* `Tracks.process`, `Tracks.step` — every step keeps a node tracked
* `handoff_inflight_le_limit` — the bound
* `holdsNothing_of_ungranted` — a node that joins for the first time meets its condition
-/

namespace ThrottleKit.Concurrency

open Machine

variable {ι : Type} [LinearOrder ι]

/-- What a guard that enforces generation `gen` may go on to enforce, by the record. -/
def NodeRecord.ceilingFor (rec : NodeRecord) (gen : ℤ) : ℤ :=
  if gen = rec.committedGen then rec.share else rec.unackedHigh

/-- What the record of a node knows of it: the reserve covers what the guard has in flight, what it
enforces and what it may still apply; and for a heartbeat yet to be processed, what it reports or
the ceiling for its generation covers all that is in flight from then on. -/
structure Tracks (n : Node ι) (rec : NodeRecord) : Prop where
  share_nonneg : 0 ≤ rec.share
  share_le : rec.share ≤ rec.unackedHigh
  applied_le : n.guard.appliedGen ≤ rec.committedGen
  enforced : n.guard.share ≤ rec.ceilingFor n.guard.appliedGen
  inflight : (n.guard.limiter.inflight : ℤ) ≤ max rec.unackedHigh rec.inflight
  acked : ∀ beat ∈ n.beats, beat.report.ackedGen ≤ n.guard.appliedGen
  order : ∀ beat ∈ n.beats, ∀ beat' ∈ n.beats, beat.report.seqNo ≤ beat'.report.seqNo →
    beat.report.ackedGen ≤ beat'.report.ackedGen
  reply : ∀ beat ∈ n.beats, beat.awaited = true → ∀ grant, beat.grant = some grant →
    ∃ gen, grant.gen = some gen ∧ gen ≤ rec.committedGen ∧
      (n.guard.appliedGen ≤ gen → grant.share ≤ rec.ceilingFor gen)
  fresh : ∀ beat ∈ n.beats, rec.maxSeq < beat.report.seqNo →
    beat.report.inflight ≤ max rec.unackedHigh rec.inflight
  covers : ∀ beat ∈ n.beats, rec.maxSeq < beat.report.seqNo →
    (n.guard.limiter.inflight : ℤ)
        ≤ max beat.report.inflight (rec.ceilingFor beat.report.ackedGen) ∧
      ∀ beat' ∈ n.beats, beat.report.seqNo < beat'.report.seqNo → beat'.report.inflight
        ≤ max beat.report.inflight (rec.ceilingFor beat.report.ackedGen)

/-- The node holds nothing, nothing it sent says otherwise, and no reply is on its way. -/
def HoldsNothing (n : Node ι) : Prop :=
  n.guard.share = 0 ∧ n.guard.limiter.inflight = 0 ∧ n.guard.appliedGen = 0 ∧
    ∀ beat ∈ n.beats, beat.report.inflight = 0 ∧ beat.report.ackedGen = 0 ∧
      ¬ (beat.grant.isSome ∧ beat.awaited = true)

instance (n : Node ι) : Decidable (HoldsNothing n) := inferInstanceAs (Decidable (_ ∧ _))

/-! ### The conditions on a step -/

/-- The step applies a grant of an older generation than the guard enforces. -/
def regresses (n : Node ι) : Act → Bool
  | .deliver b =>
    match n.beats[b]? with
    | some ⟨report, some grant, _⟩ => n.guard.appliedSeq ≤ report.seqNo &&
      grant.gen.any fun gen => gen < n.guard.appliedGen
    | _ => false
  | _ => false

/-- The step processes a heartbeat of a node that has no record although it holds something. -/
def rejoins (coord : Coordinator ι) (i : ι) (n : Node ι) : Act → Bool
  | .process _ _ => (coord.records.lookup i).isNone && !decide (HoldsNothing n)
  | _ => false

/-- The step fits a fleet of limit `L` whose guards fail closed. -/
def fitsFleet (L : ℤ) (cfg : Config) : Act → Bool
  | .adapt limit _ => limit = L
  | .fail _ => cfg.failClosed
  | _ => true

/-- The limit is constant and guards fail closed. -/
def FitsFleet (L : ℤ) (cfg : ι → Config) (_ : Parties ι (Coordinator ι) (Node ι)) (a : ι × Act) :
    Prop :=
  fitsFleet L (cfg a.1) a.2 = true

/-- The conditions on a step: the limit is constant and guards fail closed, no guard applies a grant
of an older generation than it enforces, and only a node that holds nothing heartbeats without a
record. -/
def HandoffStep (L : ℤ) (cfg : ι → Config) (s : Parties ι (Coordinator ι) (Node ι)) (a : ι × Act) :
    Prop :=
  FitsFleet L cfg s a ∧ regresses (s.party a.1) a.2 = false ∧
    rejoins s.shared a.1 (s.party a.1) a.2 = false

instance (L : ℤ) (cfg : ι → Config) (s : Parties ι (Coordinator ι) (Node ι)) (a : ι × Act) :
    Decidable (FitsFleet L cfg s a) := inferInstanceAs (Decidable (_ = _))

instance (L : ℤ) (cfg : ι → Config) (s : Parties ι (Coordinator ι) (Node ι)) (a : ι × Act) :
    Decidable (HandoffStep L cfg s a) := inferInstanceAs (Decidable (_ ∧ _))

/-! ### The record after a heartbeat -/

section Record

variable {rec : NodeRecord} {share acked gen : ℤ}

theorem NodeRecord.ceilingFor_self (rec : NodeRecord) :
    rec.ceilingFor rec.committedGen = rec.share :=
  if_pos rfl

/-- A grant leaves the generation and its share, or commits a share of the next generation. The
reserve is at least what it was and the share, or the node has confirmed the current generation. -/
theorem granted_cases (rec : NodeRecord) (share : ℤ) (hacked : acked ≤ rec.committedGen) :
    (share = rec.share ∧ (rec.granted share acked).committedGen = rec.committedGen ∧
      acked = rec.committedGen ∧ (rec.granted share acked).unackedHigh = share) ∨
    ((rec.granted share acked).unackedHigh = max rec.unackedHigh share ∧
      (share = rec.share ∧ (rec.granted share acked).committedGen = rec.committedGen ∨
        (rec.granted share acked).committedGen = rec.committedGen + 1)) := by
  by_cases hsame : share = rec.share
  · have hgen : (rec.granted share acked).committedGen = rec.committedGen :=
      if_neg (not_not.mpr hsame)
    by_cases hle : rec.committedGen ≤ acked
    · refine .inl ⟨hsame, hgen, le_antisymm hacked hle, ?_⟩
      simp [NodeRecord.granted, hsame, hle]
    · refine .inr ⟨?_, .inl ⟨hsame, hgen⟩⟩
      simp [NodeRecord.granted, hsame, hle]
  · have hgen : (rec.granted share acked).committedGen = rec.committedGen + 1 := if_pos hsame
    have hlt : ¬ rec.committedGen + 1 ≤ acked := by omega
    refine .inr ⟨?_, .inr hgen⟩
    simp [NodeRecord.granted, hsame, hlt]

/-- The ceiling for a generation from the confirmed to the committed one does not fall. -/
theorem ceilingFor_granted_ge (hle : rec.share ≤ rec.unackedHigh)
    (hacked : acked ≤ rec.committedGen) (hfrom : acked ≤ gen) (hto : gen ≤ rec.committedGen) :
    rec.ceilingFor gen ≤ (rec.granted share acked).ceilingFor gen := by
  have hshare : (rec.granted share acked).share = share := rfl
  unfold NodeRecord.ceilingFor
  rcases granted_cases rec share hacked with ⟨hsame, hgen, heq, -⟩ | ⟨hhigh, ⟨hsame, hgen⟩ | hgen⟩
  · obtain rfl : gen = rec.committedGen := by omega
    rw [if_pos rfl, hgen, if_pos rfl, hshare, hsame]
  · rw [hgen, hshare, hhigh, hsame]
    split <;> omega
  · rw [hgen, if_neg (show ¬ gen = rec.committedGen + 1 by omega), hhigh]
    split <;> omega

/-- The reserve covers the ceiling for the confirmed generation. -/
theorem ceilingFor_le_unackedHigh (hle : rec.share ≤ rec.unackedHigh)
    (hacked : acked ≤ rec.committedGen) :
    rec.ceilingFor acked ≤ (rec.granted share acked).unackedHigh := by
  unfold NodeRecord.ceilingFor
  rcases granted_cases rec share hacked with ⟨hsame, -, heq, hhigh⟩ | ⟨hhigh, -⟩
  · rw [if_pos heq, hhigh, hsame]
  · rw [hhigh]
    split <;> omega

theorem granted_unackedHigh (hacked : acked ≤ rec.committedGen) :
    share ≤ (rec.granted share acked).unackedHigh ∧
      (rec.granted share acked).unackedHigh ≤ max rec.unackedHigh share := by
  rcases granted_cases rec share hacked with ⟨-, -, -, hhigh⟩ | ⟨hhigh, -⟩ <;>
    rw [hhigh] <;> omega

theorem granted_committedGen (hacked : acked ≤ rec.committedGen) :
    rec.committedGen ≤ (rec.granted share acked).committedGen := by
  rcases granted_cases rec share hacked with ⟨-, hgen, -⟩ | ⟨-, ⟨-, hgen⟩ | hgen⟩ <;> omega

/-- No ceiling is above the reserve. -/
theorem ceilingFor_le (hle : rec.share ≤ rec.unackedHigh) :
    rec.ceilingFor gen ≤ rec.unackedHigh := by
  unfold NodeRecord.ceilingFor
  split <;> omega

/-- An older generation has the higher ceiling. -/
theorem ceilingFor_anti (hle : rec.share ≤ rec.unackedHigh) {gen' : ℤ} (hgen : gen ≤ gen')
    (hto : gen' ≤ rec.committedGen) : rec.ceilingFor gen' ≤ rec.ceilingFor gen := by
  unfold NodeRecord.ceilingFor
  by_cases heq : gen = rec.committedGen
  · rw [if_pos heq, if_pos (by omega)]
  · rw [if_neg heq]
    split <;> omega

end Record

/-! ### What keeps a node tracked -/

section Tracks

variable {n : Node ι} {rec rec' : NodeRecord} {beat : Beat ι}

omit [LinearOrder ι] in
/-- The expiry and the reported limit do not matter. -/
theorem Tracks.congr (h : Tracks n rec) (l : ℤ) (expiresAt : ℚ) :
    Tracks n { rec with lLocal := l, expiresAt := expiresAt } :=
  ⟨h.share_nonneg, h.share_le, h.applied_le, h.enforced, h.inflight, h.acked, h.order, h.reply,
    h.fresh, h.covers⟩

omit [LinearOrder ι] in
/-- A node that holds nothing is tracked by a record of nothing. -/
theorem Tracks.of_holdsNothing (h : HoldsNothing n) {l : ℤ} {expiresAt : ℚ} :
    Tracks n ⟨l, 0, expiresAt, 0, 0, 0, 0⟩ := by
  obtain ⟨hshare, hinflight, hgen, hbeats⟩ := h
  have hzero : ∀ gen, NodeRecord.ceilingFor ⟨l, 0, expiresAt, 0, 0, 0, 0⟩ gen = 0 := fun _ =>
    ite_self 0
  refine ⟨le_rfl, le_rfl, hgen.le, ?_, ?_, fun beat hmem => ?_, fun beat hmem beat' hmem' _ => ?_,
    fun beat hmem hawaited grant hgrant => ?_, fun beat hmem _ => ?_, fun beat hmem _ => ?_⟩
  · rw [hzero, hshare]
  · rw [hinflight]
    exact le_rfl
  · rw [(hbeats beat hmem).2.1, hgen]
  · rw [(hbeats beat hmem).2.1, (hbeats beat' hmem').2.1]
  · exact absurd ⟨by simp [hgrant], hawaited⟩ (hbeats beat hmem).2.2
  · rw [(hbeats beat hmem).1]
    exact le_rfl
  · rw [hzero, (hbeats beat hmem).1, hinflight]
    refine ⟨le_rfl, fun beat' hmem' _ => ?_⟩
    rw [(hbeats beat' hmem').1]
    exact le_rfl

omit [LinearOrder ι] in
/-- **A fresh heartbeat advances the record.** -/
theorem Tracks.advance (h : Tracks n rec) (hmem : beat ∈ n.beats)
    (hfresh : rec.maxSeq < beat.report.seqNo) {share : ℤ} (hshare : 0 ≤ share) :
    Tracks n { rec.granted share beat.report.ackedGen with
      inflight := beat.report.inflight, maxSeq := beat.report.seqNo } := by
  have happlied := h.acked beat hmem
  have hacked : beat.report.ackedGen ≤ rec.committedGen := happlied.trans h.applied_le
  have hkept : ∀ gen, beat.report.ackedGen ≤ gen → gen ≤ rec.committedGen →
      rec.ceilingFor gen ≤ (rec.granted share beat.report.ackedGen).ceilingFor gen :=
    fun gen => ceilingFor_granted_ge h.share_le hacked
  have hcovered : rec.ceilingFor beat.report.ackedGen
      ≤ (rec.granted share beat.report.ackedGen).unackedHigh :=
    ceilingFor_le_unackedHigh h.share_le hacked
  obtain ⟨hinflight, hlater⟩ := h.covers beat hmem hfresh
  constructor
  case share_nonneg => exact hshare
  case share_le => exact (granted_unackedHigh hacked).1
  case applied_le => exact h.applied_le.trans (granted_committedGen hacked)
  case enforced => exact h.enforced.trans (hkept _ happlied h.applied_le)
  case inflight =>
    show _ ≤ max (rec.granted share beat.report.ackedGen).unackedHigh beat.report.inflight
    omega
  case acked => exact h.acked
  case order => exact h.order
  case reply =>
    intro beat₁ hmem₁ hawaited grant hgrant
    obtain ⟨gen, hgen, hle, happlies⟩ := h.reply beat₁ hmem₁ hawaited grant hgrant
    exact ⟨gen, hgen, hle.trans (granted_committedGen hacked), fun hfrom =>
      (happlies hfrom).trans (hkept gen (happlied.trans hfrom) hle)⟩
  case fresh =>
    intro beat₁ hmem₁ hlt
    have hle := hlater beat₁ hmem₁ hlt
    show _ ≤ max (rec.granted share beat.report.ackedGen).unackedHigh beat.report.inflight
    omega
  case covers =>
    intro beat₁ hmem₁ hlt
    have hto : beat₁.report.ackedGen ≤ rec.committedGen :=
      (h.acked beat₁ hmem₁).trans h.applied_le
    have hceiling := hkept _ (h.order beat hmem beat₁ hmem₁ (le_of_lt hlt)) hto
    obtain ⟨hinflight₁, hlater₁⟩ := h.covers beat₁ hmem₁ (hfresh.trans hlt)
    exact ⟨hinflight₁.trans (max_le_max le_rfl hceiling), fun beat' hmem' hlt' =>
      (hlater₁ beat' hmem' hlt').trans (max_le_max le_rfl hceiling)⟩

omit [LinearOrder ι] in
/-- A heartbeat may move on, if its reply is one the guard may apply. -/
theorem Tracks.setBeat (h : Tracks n rec) {b : ℕ} (hbeat : n.beats[b]? = some beat)
    {beat' : Beat ι} (hreport : beat'.report = beat.report)
    (hreply : beat'.awaited = true → ∀ grant, beat'.grant = some grant →
      ∃ gen, grant.gen = some gen ∧ gen ≤ rec.committedGen ∧
        (n.guard.appliedGen ≤ gen → grant.share ≤ rec.ceilingFor gen)) :
    Tracks (n.setBeat b beat') rec := by
  have hold : ∀ beat₁ ∈ (n.setBeat b beat').beats, ∃ beat₀ ∈ n.beats,
      beat₁.report = beat₀.report := by
    intro beat₁ hmem
    rcases List.mem_or_eq_of_mem_set hmem with hmem₀ | rfl
    · exact ⟨beat₁, hmem₀, rfl⟩
    · exact ⟨beat, List.mem_of_getElem? hbeat, hreport⟩
  refine ⟨h.share_nonneg, h.share_le, h.applied_le, h.enforced, h.inflight, fun beat₁ hmem => ?_,
    fun beat₁ hmem beat₂ hmem' => ?_, fun beat₁ hmem hawaited => ?_, fun beat₁ hmem => ?_,
    fun beat₁ hmem hfresh => ?_⟩
  · obtain ⟨beat₀, hmem₀, hsame⟩ := hold beat₁ hmem
    rw [hsame]
    exact h.acked beat₀ hmem₀
  · obtain ⟨beat₀, hmem₀, hsame⟩ := hold beat₁ hmem
    obtain ⟨beat₀', hmem₀', hsame'⟩ := hold beat₂ hmem'
    rw [hsame, hsame']
    exact h.order beat₀ hmem₀ beat₀' hmem₀'
  · rcases List.mem_or_eq_of_mem_set hmem with hmem₀ | rfl
    · exact h.reply beat₁ hmem₀ hawaited
    · exact hreply hawaited
  · obtain ⟨beat₀, hmem₀, hsame⟩ := hold beat₁ hmem
    rw [hsame]
    exact h.fresh beat₀ hmem₀
  · obtain ⟨beat₀, hmem₀, hsame⟩ := hold beat₁ hmem
    rw [hsame] at hfresh ⊢
    obtain ⟨hinflight, hlater⟩ := h.covers beat₀ hmem₀ hfresh
    refine ⟨hinflight, fun beat₂ hmem' hlt => ?_⟩
    obtain ⟨beat₀', hmem₀', hsame'⟩ := hold beat₂ hmem'
    rw [hsame'] at hlt ⊢
    exact hlater beat₀' hmem₀' hlt

omit [LinearOrder ι] in
/-- A heartbeat is no longer awaited. -/
theorem Tracks.settle (h : Tracks n rec) {b : ℕ} (hbeat : n.beats[b]? = some beat) :
    Tracks (n.setBeat b { beat with awaited := false }) rec :=
  h.setBeat hbeat rfl fun hawaited => nomatch hawaited

omit [LinearOrder ι] in
/-- The guard may move to a later generation and a share below its ceiling, and count no more than
before, or than its share. -/
theorem Tracks.setGuard (h : Tracks n rec) {g : Guard}
    (happlied : n.guard.appliedGen ≤ g.appliedGen) (hto : g.appliedGen ≤ rec.committedGen)
    (henforced : g.share ≤ rec.ceilingFor g.appliedGen)
    (hcount : g.limiter.inflight ≤ n.guard.limiter.inflight ∨
      (g.limiter.inflight : ℤ) ≤ n.guard.share) : Tracks (n.setGuard g) rec := by
  have hshare := h.enforced
  have hhigh : rec.ceilingFor n.guard.appliedGen ≤ rec.unackedHigh := ceilingFor_le h.share_le
  have hinflight := h.inflight
  refine ⟨h.share_nonneg, h.share_le, hto, henforced, ?_, fun beat hmem =>
    (h.acked beat hmem).trans happlied, h.order, fun beat hmem hawaited grant hgrant => ?_, h.fresh,
    fun beat hmem hfresh => ⟨?_, (h.covers beat hmem hfresh).2⟩⟩
  · show (g.limiter.inflight : ℤ) ≤ _
    omega
  · obtain ⟨gen, hgen, hle, happlies⟩ := h.reply beat hmem hawaited grant hgrant
    exact ⟨gen, hgen, hle, fun hfrom => happlies (happlied.trans hfrom)⟩
  · have hceiling := ceilingFor_anti h.share_le (h.acked beat hmem) h.applied_le
    have hcovered := (h.covers beat hmem hfresh).1
    show (g.limiter.inflight : ℤ) ≤ _
    omega

omit [LinearOrder ι] in
/-- A heartbeat samples the generation and what is in flight under it. -/
theorem Tracks.send (h : Tracks n rec) {L : ℤ} {i : ι} (hwired : Wired L i n) (cfg : Config)
    (now : ℚ) : Tracks { n.setGuard (sendHeartbeat cfg i n.guard now).1 with
      beats := n.beats ++ [⟨(sendHeartbeat cfg i n.guard now).2, none, true⟩] } rec := by
  have hset : Tracks (n.setGuard (sendHeartbeat cfg i n.guard now).1) rec :=
    h.setGuard le_rfl h.applied_le h.enforced (.inl le_rfl)
  have hseq : ∀ beat ∈ n.beats, beat.report.seqNo < n.guard.heartbeatSeq + 1 := fun beat hmem => by
    have hle := (hwired.seq beat hmem).2
    omega
  refine ⟨h.share_nonneg, h.share_le, h.applied_le, h.enforced, h.inflight, fun beat hmem => ?_,
    fun beat hmem beat' hmem' hle => ?_, fun beat hmem hawaited grant hgrant => ?_,
    fun beat hmem hfresh => ?_, fun beat hmem hfresh => ⟨?_, fun beat' hmem' hlt => ?_⟩⟩
  all_goals rcases List.mem_append.mp hmem with hold | hnew
  all_goals first
    | obtain rfl := List.mem_singleton.mp hnew
    | skip
  · exact h.acked beat hold
  · exact le_rfl
  · rcases List.mem_append.mp hmem' with hold' | hnew'
    · exact h.order beat hold beat' hold' hle
    · obtain rfl := List.mem_singleton.mp hnew'
      exact h.acked beat hold
  · rcases List.mem_append.mp hmem' with hold' | hnew'
    · exact absurd (hseq beat' hold') (not_lt.mpr hle)
    · obtain rfl := List.mem_singleton.mp hnew'
      exact le_rfl
  · exact h.reply beat hold hawaited grant hgrant
  · cases hgrant
  · exact h.fresh beat hold hfresh
  · exact h.inflight
  · exact (h.covers beat hold hfresh).1
  · exact le_max_left _ _
  · rcases List.mem_append.mp hmem' with hold' | hnew'
    · exact (h.covers beat hold hfresh).2 beat' hold' hlt
    · obtain rfl := List.mem_singleton.mp hnew'
      exact (h.covers beat hold hfresh).1
  · rcases List.mem_append.mp hmem' with hold' | hnew'
    · exact absurd (hseq beat' hold') (not_lt.mpr hlt.le)
    · obtain rfl := List.mem_singleton.mp hnew'
      exact absurd hlt (lt_irrefl _)

omit [LinearOrder ι] in
/-- A report that says nothing is in flight finds no record as it finds a record of nothing. -/
theorem afterGrant_none (opts : HeartbeatOptions) (report : Report ι)
    (hinflight : report.inflight = 0) (share : ℤ) : afterGrant opts none report share
      = afterGrant opts (some ⟨report.lLocal, 0, report.expiresAt, 0, 0, 0, 0⟩) report share := by
  have hself : upserted opts none report
      = upserted opts (some ⟨report.lLocal, 0, report.expiresAt, 0, 0, 0, 0⟩) report := by
    simp [upserted, isFresh, hinflight]
  rw [afterGrant, afterGrant, hself]
  rfl

omit [LinearOrder ι] in
theorem isFresh_iff {opts : HeartbeatOptions} (hhandoff : opts.handoff = true) {report : Report ι}
    (hpos : 0 < report.seqNo) :
    isFresh opts (some rec) report = true ↔ rec.maxSeq < report.seqNo := by
  have hseq : ¬ report.seqNo < 0 := not_lt.mpr hpos.le
  simp only [isFresh, hhandoff, hseq, decide_false, Bool.not_true, Bool.false_or, Option.elim_some]
  exact decide_eq_true_iff

omit [LinearOrder ι] in
theorem afterGrant_of_fresh {opts : HeartbeatOptions} (hhandoff : opts.handoff = true)
    {report : Report ι} (hpos : 0 < report.seqNo) (hfresh : rec.maxSeq < report.seqNo)
    (share : ℤ) : afterGrant opts (some rec) report share
      = { ({ rec.granted share report.ackedGen with
          inflight := report.inflight, maxSeq := report.seqNo } : NodeRecord) with
            lLocal := report.lLocal, expiresAt := report.expiresAt } := by
  have hseq : max rec.maxSeq report.seqNo = report.seqNo := max_eq_right hfresh.le
  simp [afterGrant, upserted, NodeRecord.granted, (isFresh_iff hhandoff hpos).mpr hfresh, hhandoff,
    hseq]

omit [LinearOrder ι] in
theorem afterGrant_of_stale {opts : HeartbeatOptions} (hhandoff : opts.handoff = true)
    {report : Report ι} (hpos : 0 < report.seqNo) (hstale : report.seqNo ≤ rec.maxSeq)
    (share : ℤ) : afterGrant opts (some rec) report share
      = { rec with lLocal := report.lLocal, expiresAt := report.expiresAt } := by
  have hseq : max rec.maxSeq report.seqNo = rec.maxSeq := max_eq_left hstale
  have hnot : isFresh opts (some rec) report = false := by
    rw [Bool.eq_false_iff, ne_eq, isFresh_iff hhandoff hpos]
    exact not_lt.mpr hstale
  simp [afterGrant, upserted, hnot, hhandoff, hseq]

omit [LinearOrder ι] in
/-- **A heartbeat that is processed leaves its node tracked**, by a record that occupies no more
than the share, or what it did. -/
theorem Tracks.process (h : Tracks n rec) {opts : HeartbeatOptions} (hhandoff : opts.handoff = true)
    {b : ℕ} (hbeat : n.beats[b]? = some beat) (hpos : 0 < beat.report.seqNo) {share : ℤ}
    (hshare : 0 ≤ share) {grant : Grant}
    (hrec' : rec' = afterGrant opts (some rec) beat.report share)
    (hgrant : grant.share = rec'.share) (hgen : grant.gen = some rec'.committedGen) :
    Tracks (n.setBeat b { beat with grant := some grant }) rec' ∧ 0 ≤ occupied opts.handoff rec' ∧
      occupied opts.handoff rec' ≤ max share (occupied opts.handoff rec) := by
  have hmem := List.mem_of_getElem? hbeat
  have hocc : ∀ r : NodeRecord, occupied opts.handoff r = max r.unackedHigh r.inflight := by
    intro r
    rw [hhandoff]
    rfl
  have hbefore := h.share_nonneg.trans h.share_le
  have htracks : Tracks n rec' ∧ max rec'.unackedHigh rec'.inflight
      ≤ max share (max rec.unackedHigh rec.inflight) := by
    by_cases hfresh : rec.maxSeq < beat.report.seqNo
    · have hadvance := h.advance hmem hfresh hshare
      rw [hrec', afterGrant_of_fresh hhandoff hpos hfresh]
      refine ⟨hadvance.congr _ _, ?_⟩
      have hhigh : share ≤ (rec.granted share beat.report.ackedGen).unackedHigh ∧
          (rec.granted share beat.report.ackedGen).unackedHigh ≤ max rec.unackedHigh share :=
        granted_unackedHigh ((h.acked beat hmem).trans h.applied_le)
      have hreported := h.fresh beat hmem hfresh
      dsimp only
      omega
    · rw [hrec', afterGrant_of_stale hhandoff hpos (not_lt.mp hfresh)]
      exact ⟨h.congr _ _, le_max_right _ _⟩
  refine ⟨htracks.1.setBeat hbeat rfl fun _ grant₁ hgrant₁ => ?_, ?_, ?_⟩
  · obtain rfl := Option.some.inj hgrant₁
    refine ⟨_, hgen, le_rfl, fun _ => ?_⟩
    rw [rec'.ceilingFor_self, hgrant]
  · rw [hocc]
    exact (htracks.1.share_nonneg.trans htracks.1.share_le).trans (le_max_left _ _)
  · rw [hocc, hocc]
    exact htracks.2

end Tracks

/-! ### Steps -/

section Step

variable {opts : HeartbeatOptions} {cfg : Config} {coord coord' : Coordinator ι} {i : ι}
  {n n' : Node ι} {a : Act} {evs : List Event} {L : ℤ}

/-- What a heartbeat that is processed leaves, whether or not its node had a record. -/
theorem tracks_afterGrant (h : ∀ rec, coord.records.lookup i = some rec → Tracks n rec)
    (hhandoff : opts.handoff = true) (hwired : Wired L i n) {b : ℕ} {now : ℚ} {beat : Beat ι}
    (hbeat : n.beats[b]? = some beat) (hrejoins : rejoins coord i n (.process b now) = false)
    {share : ℤ} (hshare : 0 ≤ share) (grant : Grant) {rec' : NodeRecord}
    (hrec' : rec' = afterGrant opts (coord.records.lookup i) beat.report share)
    (hgrant : grant.share = rec'.share) (hgen : grant.gen = some rec'.committedGen) :
    Tracks (n.setBeat b { beat with grant := some grant }) rec' ∧ 0 ≤ occupied opts.handoff rec' ∧
      occupied opts.handoff rec'
        ≤ max share ((coord.records.lookup i).elim 0 (occupied opts.handoff)) := by
  have hmem := List.mem_of_getElem? hbeat
  have hpos := (hwired.seq beat hmem).1
  cases hprior : coord.records.lookup i with
  | some rec =>
    rw [hprior] at hrec'
    exact (h rec hprior).process hhandoff hbeat hpos hshare hrec' hgrant hgen
  | none =>
    have hnothing : HoldsNothing n := by simpa [rejoins, hprior] using hrejoins
    rw [hprior, afterGrant_none opts beat.report (hnothing.2.2.2 beat hmem).1] at hrec'
    obtain ⟨htracks, hnonneg, hle⟩ :=
      (Tracks.of_holdsNothing hnothing).process hhandoff hbeat hpos hshare hrec' hgrant hgen
    refine ⟨htracks, hnonneg, hle.trans_eq ?_⟩
    rw [hhandoff]
    rfl

/-- **Every step keeps a node tracked.** -/
theorem Tracks.step (h : ∀ rec, coord.records.lookup i = some rec → Tracks n rec)
    (hwithin : Within opts L coord.records) (hwired : Wired L i n) (hhandoff : opts.handoff = true)
    (hstep : step opts cfg i coord n a = some (coord', n', evs)) (hfits : fitsFleet L cfg a = true)
    (hregresses : regresses n a = false) (hrejoins : rejoins coord i n a = false) :
    ∀ rec, coord'.records.lookup i = some rec → Tracks n' rec := by
  cases a with
  | acquire now =>
    cases hstep
    intro rec hrec
    obtain ⟨l, hg, -, hcount⟩ := acquire_fst cfg n.guard now
    rw [hg]
    refine (h rec hrec).setGuard le_rfl (h rec hrec).applied_le (h rec hrec).enforced ?_
    rcases hcount with hsame | ⟨hmore, hlt⟩
    · exact .inl hsame.le
    · refine .inr ?_
      dsimp only
      omega
  | release =>
    obtain ⟨rfl, rfl⟩ := release_eq_some hstep
    exact fun rec hrec => (h rec hrec).setGuard le_rfl (h rec hrec).applied_le
      (h rec hrec).enforced (.inl (Nat.sub_le _ _))
  | adapt limit probeLimit =>
    cases hstep
    exact fun rec hrec => (h rec hrec).setGuard le_rfl (h rec hrec).applied_le
      (h rec hrec).enforced (.inl le_rfl)
  | send now =>
    cases hstep
    exact fun rec hrec => (h rec hrec).send hwired cfg now
  | process b now =>
    obtain ⟨beat, state, grant, hbeat, -, happly, rfl, rfl⟩ := process_eq_some hstep
    have hmem := List.mem_of_getElem? hbeat
    obtain ⟨share, hshare, -, hrecords, hgrant, hgen⟩ :=
      applyHeartbeat_spec happly hwithin.limit (hwired.reported beat hmem)
    rw [hwired.nodeId beat hmem] at hrecords hgrant hgen
    intro rec hrec
    rw [show (⟨state, now⟩ : Coordinator ι).records = _ from hrecords,
      OrderedMap.lookup_set_self] at hrec
    exact (tracks_afterGrant h hhandoff hwired hbeat hrejoins hshare grant
      (Option.some.inj hrec).symm (by rw [hgrant, Option.some.inj hrec])
      (by rw [hgen hhandoff, Option.some.inj hrec])).1
  | deliver b =>
    obtain ⟨rfl, beat, grant, hbeat, hgrant, hawaited, rfl⟩ := deliver_eq_some hstep
    intro rec hrec
    have htracks := h rec hrec
    refine Tracks.settle ?_ hbeat
    rcases lt_or_ge beat.report.seqNo n.guard.appliedSeq with hlt | hge
    · rw [applyGrant_of_lt hlt]
      exact htracks.setGuard le_rfl htracks.applied_le htracks.enforced (.inl le_rfl)
    · obtain ⟨gen, hgen, hle, happlies⟩ :=
        htracks.reply beat (List.mem_of_getElem? hbeat) hawaited grant hgrant
      have hfrom : n.guard.appliedGen ≤ gen := by
        obtain ⟨report, grant?, awaited⟩ := beat
        obtain rfl : grant? = some grant := hgrant
        simpa [regresses, hbeat, hgen, hge] using hregresses
      rw [applyGrant_of_le hge, hgen]
      exact htracks.setGuard hfrom hle (happlies hfrom) (.inl le_rfl)
  | fail b =>
    obtain ⟨rfl, beat, hbeat, -, rfl⟩ := fail_eq_some hstep
    intro rec hrec
    have htracks := h rec hrec
    refine Tracks.settle ?_ hbeat
    rcases lt_or_ge beat.report.seqNo n.guard.appliedSeq with hlt | hge
    · rw [outage_of_lt hlt]
      exact htracks
    · rw [outage_of_le hfits hge]
      refine htracks.setGuard le_rfl htracks.applied_le ?_ (.inl le_rfl)
      have hnonneg := htracks.share_nonneg
      have hle := htracks.share_le
      show (0 : ℤ) ≤ rec.ceilingFor n.guard.appliedGen
      unfold NodeRecord.ceilingFor
      split <;> omega
  | close =>
    cases hstep
    intro rec hrec
    have htracks := h rec hrec
    exact ⟨htracks.share_nonneg, htracks.share_le, htracks.applied_le, htracks.enforced,
      htracks.inflight, htracks.acked, htracks.order, htracks.reply, htracks.fresh, htracks.covers⟩
  | leave =>
    obtain ⟨-, rfl, rfl⟩ := leave_eq_some hstep
    intro rec hrec
    rw [OrderedMap.lookup_erase_self] at hrec
    cases hrec

/-- The node holds nothing, and none of its heartbeats was processed. -/
def Ungranted (n : Node ι) : Prop := HoldsNothing n ∧ ∀ beat ∈ n.beats, beat.grant = none

omit [LinearOrder ι] in
/-- The guard may change while it holds nothing. -/
theorem Ungranted.setGuard (h : Ungranted n) {g : Guard} (hshare : g.share = 0)
    (hinflight : g.limiter.inflight = 0) (hgen : g.appliedGen = 0) : Ungranted (n.setGuard g) :=
  ⟨⟨hshare, hinflight, hgen, h.1.2.2.2⟩, h.2⟩

/-- A step without a grant leaves the node holding nothing. -/
theorem Ungranted.step (h : Ungranted n)
    (hstep : step opts cfg i coord n a = some (coord', n', evs)) (hfits : fitsFleet L cfg a = true)
    (hevs : ∀ grant, Event.granted grant ∉ evs) : Ungranted n' := by
  have ⟨⟨hshare, hinflight, hgen, hbeats⟩, hgrants⟩ := h
  cases a with
  | acquire now =>
    cases hstep
    obtain ⟨l, hg, -, hcount⟩ := acquire_fst cfg n.guard now
    rw [hg]
    refine h.setGuard hshare ?_ hgen
    show l.inflight = 0
    omega
  | release =>
    simp only [Concurrency.step, hinflight, lt_irrefl, if_false] at hstep
    cases hstep
  | adapt limit probeLimit =>
    cases hstep
    exact h.setGuard hshare hinflight hgen
  | send now =>
    cases hstep
    refine ⟨⟨hshare, hinflight, hgen, fun beat hmem => ?_⟩, fun beat hmem => ?_⟩
    all_goals rcases List.mem_append.mp hmem with hold | hnew
    · exact hbeats beat hold
    · obtain rfl := List.mem_singleton.mp hnew
      refine ⟨?_, hgen, by simp⟩
      show (n.guard.limiter.inflight : ℤ) = 0
      rw [hinflight, Nat.cast_zero]
    · exact hgrants beat hold
    · obtain rfl := List.mem_singleton.mp hnew
      rfl
  | process b now =>
    obtain ⟨beat, hbeat, hstep⟩ := Option.bind_eq_some_iff.mp hstep
    split at hstep
    · cases hstep
    · cases hstep
      exact absurd List.mem_cons_self (hevs _)
  | deliver b =>
    obtain ⟨-, beat, grant, hbeat, hgrant, -⟩ := deliver_eq_some hstep
    rw [hgrants beat (List.mem_of_getElem? hbeat)] at hgrant
    cases hgrant
  | fail b =>
    obtain ⟨rfl, beat, hbeat, -, rfl⟩ := fail_eq_some hstep
    have hset : Ungranted (n.setGuard (outage cfg n.guard beat.report)) := by
      rcases lt_or_ge beat.report.seqNo n.guard.appliedSeq with hlt | hge
      · rw [outage_of_lt hlt]
        exact h
      · rw [outage_of_le hfits hge]
        exact h.setGuard rfl hinflight hgen
    have hmem := List.mem_of_getElem? hbeat
    refine ⟨⟨hset.1.1, hset.1.2.1, hset.1.2.2.1, fun beat₁ hmem₁ => ?_⟩, fun beat₁ hmem₁ => ?_⟩
    all_goals rcases List.mem_or_eq_of_mem_set hmem₁ with hold | rfl
    · exact hbeats beat₁ hold
    · exact ⟨(hbeats beat hmem).1, (hbeats beat hmem).2.1, by simp⟩
    · exact hgrants beat₁ hold
    · exact hgrants beat hmem
  | close =>
    cases hstep
    exact ⟨⟨hshare, hinflight, hgen, hbeats⟩, hgrants⟩
  | leave =>
    obtain ⟨-, rfl, rfl⟩ := leave_eq_some hstep
    exact ⟨⟨hshare, hinflight, hgen, hbeats⟩, hgrants⟩

end Step

/-! ### Runs -/

section Fleet

variable {opts : HeartbeatOptions} {cfg : ι → Config} {L : ℤ}
  {s₀ s : Parties ι (Coordinator ι) (Node ι)} {log : List (ι × Event)}

theorem tracks_of_run (hhandoff : opts.handoff = true) (hstart : Accounted L s₀)
    (hrun : (fleet opts cfg).Run (HandoffStep L cfg) s₀ log s) :
    Within opts L s.shared.records ∧ ∀ i, Wired L i (s.party i) ∧
      ∀ rec, s.shared.records.lookup i = some rec → Tracks (s.party i) rec := by
  refine Parties.run_each (S := fun coord => Within opts L coord.records)
    (I := fun i coord n => Wired L i n ∧ ∀ rec, coord.records.lookup i = some rec → Tracks n rec)
    (hstart.within opts) (fun i => ⟨hstart.wired i, fun rec hrec => ?_⟩) ?_ hrun
  · obtain ⟨-, hinflight, hshare, hgen, hhigh⟩ := hstart.recorded i rec hrec
    obtain ⟨hbeats, -, -, happlied⟩ := hstart.unbeaten i
    have hzero : ∀ gen, rec.ceilingFor gen = 0 := fun gen => by
      rw [NodeRecord.ceilingFor, hshare, hhigh, ite_self]
    refine ⟨hshare.ge, by rw [hshare, hhigh], by rw [hgen, happlied], ?_, ?_, ?_, ?_, ?_, ?_, ?_⟩
    · rw [hzero, hstart.unshared i rec hrec]
    · rw [hinflight]
      exact le_max_right _ _
    all_goals simp [hbeats]
  · rintro s i a coord' n' evs hwithin hinv ⟨hfits, hregresses, hrejoins⟩ hstep
    obtain ⟨hwired, htracks⟩ := hinv i
    have hkeeps : keepsLimit L a = true := by
      cases a <;> first | rfl | exact hfits
    refine ⟨hwithin.step hwired hstep ?_, ⟨hwired.step hstep hkeeps,
      Tracks.step htracks hwithin hwired hhandoff hstep hfits hregresses hrejoins⟩,
      fun j hji => ⟨(hinv j).1, fun rec hrec =>
        (hinv j).2 rec (lookup_step_of_ne hwired.nodeId hstep hji.symm hrec)⟩⟩
    rintro b now beat share rfl hbeat hshare
    exact (tracks_afterGrant htracks hhandoff hwired hbeat hrejoins hshare ⟨_, 0, 0, _⟩ rfl rfl
      rfl).2

/-- **Acknowledged handoff keeps the fleet within the limit.** In every run whose steps all meet the
conditions, for any nodes, aggregate and allocation, and however late and out of order heartbeats
and replies arrive: the requests in flight at the live nodes are at most `L`. -/
theorem handoff_inflight_le_limit (hhandoff : opts.handoff = true) (hstart : Accounted L s₀)
    (hrun : (fleet opts cfg).Run (HandoffStep L cfg) s₀ log s) :
    s.shared.records.sum (fun i _ => ((s.party i).guard.limiter.inflight : ℤ)) ≤ L := by
  obtain ⟨hwithin, htracks⟩ := tracks_of_run hhandoff hstart hrun
  refine le_trans (OrderedMap.sum_le_sum fun i rec hrec => ?_) hwithin.total
  rw [hhandoff]
  exact ((htracks i).2 rec hrec).inflight

/-- A node that the coordinator has not granted anything holds nothing, if it held nothing at the
start: only a node whose record was dropped can fail to hold nothing without a record. -/
theorem holdsNothing_of_ungranted (hrun : (fleet opts cfg).Run (FitsFleet L cfg) s₀ log s) {i : ι}
    (hstart : Ungranted (s₀.party i))
    (hlog : ∀ grant, Event.granted grant ∉ Parties.outputsOf i log) :
    HoldsNothing (s.party i) := by
  have hinv : i = i → (∀ grant, Event.granted grant ∉ Parties.outputsOf i log) →
      Ungranted (s.party i) := by
    refine Parties.run_party (I := fun j n l => j = i → (∀ grant, Event.granted grant ∉ l) →
      Ungranted n) ?_ ?_ hrun i
    · rintro j rfl -
      exact hstart
    · rintro s j a coord' n' evs log hinv hfits hstep rfl hlog
      refine (hinv rfl fun grant hmem => hlog grant ?_).step hstep hfits fun grant hmem =>
        hlog grant ?_
      · exact List.mem_append_left _ hmem
      · exact List.mem_append_right _ hmem
  exact (hinv rfl hlog).1

end Fleet

/-! ### The conditions are needed -/

/-- Two nodes share the limit: the reply that lowers the one is delayed while the other asks. -/
def handsOff : List (Bool × Act) :=
  [(true, .send 0), (true, .process 0 10), (true, .deliver 0), (true, .acquire 20),
    (false, .send 30), (false, .process 0 40), (true, .send 50), (true, .process 1 60),
    (false, .deliver 0), (true, .acquire 70), (false, .send 80), (false, .process 1 90),
    (true, .deliver 1), (true, .send 100), (true, .process 2 110), (false, .send 120),
    (false, .process 2 130), (false, .deliver 2), (false, .acquire 140), (false, .acquire 150)]

theorem handoff_inflight_le_limit_two_nodes :
    (((fleet (equalSplit true) fun _ : Bool => limitFour).exec (start (fun _ => limitFour) 0)
      handsOff).get (by decide +kernel)).1.shared.records.sum (fun i _ =>
        (((((fleet (equalSplit true) fun _ : Bool => limitFour).exec (start (fun _ => limitFour) 0)
          handsOff).get (by decide +kernel)).1.party i).guard.limiter.inflight : ℤ)) ≤ 4 :=
  handoff_inflight_le_limit rfl (accounted_start (L := 4) (by decide) (fun _ => rfl) 0)
    (run_of_isSome (by decide +kernel) (by decide +kernel))

/-- The second heartbeat of a node is granted four and the third two. The first one is processed
last and replied the two of the third; with that applied and confirmed, the other node is granted
the rest. Then the reply to the second lands. -/
def staleReply : List (Bool × Act) :=
  [(true, .send 0), (true, .send 10), (true, .process 1 20), (false, .send 30),
    (false, .process 0 40), (true, .send 50), (true, .process 2 60), (true, .process 0 70),
    (true, .deliver 0), (true, .send 80), (true, .process 3 90), (false, .send 100),
    (false, .process 1 110), (false, .deliver 1), (true, .deliver 1)] ++
    List.replicate 4 (true, .acquire 120) ++ List.replicate 2 (false, .acquire 130)

/-- **A stale reply exceeds the limit.** Without any node rejoining, two live nodes have six
requests in flight, of which the limit is four. -/
theorem stale_reply_exceeds_limit :
    ¬ ∀ (log : List (Bool × Event)) (s : Parties Bool (Coordinator Bool) (Node Bool)),
      (fleet (equalSplit true) fun _ : Bool => limitFour).Run
        (fun s a => FitsFleet 4 (fun _ => limitFour) s a ∧
          rejoins s.shared a.1 (s.party a.1) a.2 = false) (start (fun _ => limitFour) 0) log s →
        s.shared.records.sum (fun i _ => ((s.party i).guard.limiter.inflight : ℤ)) ≤ 4 := by
  intro h
  have hrun := run_of_isSome (m := fleet (equalSplit true) fun _ : Bool => limitFour)
    (p := fun s a => FitsFleet 4 (fun _ => limitFour) s a ∧
      rejoins s.shared a.1 (s.party a.1) a.2 = false)
    (s := start (fun _ => limitFour) 0) (l := staleReply) (by decide +kernel) (by decide +kernel)
  exact absurd (h _ _ hrun) (by decide +kernel)

end ThrottleKit.Concurrency
