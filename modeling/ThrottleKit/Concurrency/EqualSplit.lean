import ThrottleKit.Concurrency.ConstantLimit

/-!
# Equal split settles

With a constant limit and stable membership, every heartbeat aims at its node's part of an equal
split, and is capped at what the other records leave. In a first round of heartbeats the shares
above their parts come down; in the next one there is room for every part.

Rounds matter, not how often a node has heartbeaten: a node that has both its turns while another
still holds the limit is left with nothing (`two_heartbeats_each_fall_short`). Where a record can
occupy more than its share, because it shows requests that were admitted under the share before or
because the share is unacknowledged, it takes a round more.

## Main definitions

* `heartbeatMachine` — the records of a key, under heartbeats
* `Steady` — a heartbeat of a fleet of constant limit and stable membership
* `Round` — a run in which every node heartbeats
* `fairShare`, `Settled` — the equal split

## Main results

* `all_of_round` — what a heartbeat establishes of its node's record, a round establishes of all
* `equalSplit_settles` — the shares after two rounds, or three
-/

namespace ThrottleKit.Concurrency

open Machine

variable {ι : Type} [LinearOrder ι]

/-- A heartbeat as the coordinator processes it. -/
structure Arrival (ι : Type) where
  report : Report ι
  now : ℚ

/-- The records of a key, under heartbeats. -/
def heartbeatMachine (opts : HeartbeatOptions) :
    Machine (Records ι) (Arrival ι) (ι × Grant) := fun records a =>
  some ((applyHeartbeat opts records a.report a.now).1,
    [(a.report.nodeId, (applyHeartbeat opts records a.report a.now).2)])

/-- The share that the node of a heartbeat holds when it arrives. -/
def heldShare (records : Records ι) (a : Arrival ι) : ℤ :=
  (records.lookup a.report.nodeId).elim 0 (·.share)

/-- The heartbeat reports the limit `L`, and under acknowledged handoff no more in flight than the
share its node holds. -/
def Reports (opts : HeartbeatOptions) (L : ℤ) (records : Records ι) (a : Arrival ι) : Prop :=
  a.report.lLocal = L ∧ (opts.handoff = true → a.report.inflight ≤ heldShare records a)

/-- The heartbeat is one of a fleet of limit `L` and stable membership: its node has a record and no
other record has expired. Under acknowledged handoff it is in order and confirms the grant that
stands. -/
structure Steady (opts : HeartbeatOptions) (L : ℤ) (records : Records ι) (a : Arrival ι) :
    Prop where
  limit : a.report.lLocal = L
  member : a.report.nodeId ∈ records.keys
  live : ∀ e ∈ records.entries, e.1 ≠ a.report.nodeId → a.now ≤ e.2.expiresAt
  handoff : opts.handoff = true → isFresh opts (records.lookup a.report.nodeId) a.report = true ∧
    a.report.ackedGen = (records.lookup a.report.nodeId).elim 0 (·.committedGen)

/-- What the node of a heartbeat has in flight is within the share it holds. -/
def SteadyHeld (opts : HeartbeatOptions) (L : ℤ) (records : Records ι) (a : Arrival ι) : Prop :=
  Steady opts L records a ∧ a.report.inflight ≤ heldShare records a

/-- What the node of a heartbeat has in flight is within the share it is granted. -/
def SteadyGranted (opts : HeartbeatOptions) (L : ℤ) (records : Records ι) (a : Arrival ι) : Prop :=
  Steady opts L records a ∧
    a.report.inflight ≤ (applyHeartbeat opts records a.report a.now).2.share

instance (opts : HeartbeatOptions) (L : ℤ) (s : Records ι) (a : Arrival ι) :
    Decidable (Reports opts L s a) := inferInstanceAs (Decidable (_ ∧ _))

instance (opts : HeartbeatOptions) (L : ℤ) (s : Records ι) (a : Arrival ι) :
    Decidable (Steady opts L s a) :=
  decidable_of_iff (a.report.lLocal = L ∧ a.report.nodeId ∈ s.keys ∧
      (∀ e ∈ s.entries, e.1 ≠ a.report.nodeId → a.now ≤ e.2.expiresAt) ∧
      (opts.handoff = true → isFresh opts (s.lookup a.report.nodeId) a.report = true ∧
        a.report.ackedGen = (s.lookup a.report.nodeId).elim 0 (·.committedGen)))
    ⟨fun h => ⟨h.1, h.2.1, h.2.2.1, h.2.2.2⟩, fun h => ⟨h.limit, h.member, h.live, h.handoff⟩⟩

instance (opts : HeartbeatOptions) (L : ℤ) (s : Records ι) (a : Arrival ι) :
    Decidable (SteadyHeld opts L s a) := inferInstanceAs (Decidable (_ ∧ _))

instance (opts : HeartbeatOptions) (L : ℤ) (s : Records ι) (a : Arrival ι) :
    Decidable (SteadyGranted opts L s a) := inferInstanceAs (Decidable (_ ∧ _))

/-- A run of heartbeats in which every node has its turn, in any order. -/
def Round (opts : HeartbeatOptions) (ok : Records ι → Arrival ι → Prop) (s s' : Records ι) : Prop :=
  ∃ log, (heartbeatMachine opts).Run ok s log s' ∧ ∀ i ∈ s.keys, i ∈ log.map Prod.fst

/-- The part of node `i` in an equal split of `L` over the nodes of `ids`, in their order. -/
def fairShare (L : ℤ) (ids : List ι) (i : ι) : ℤ :=
  splitShare L ids.length ((ids.insertionSort (· ≤ ·)).idxOf i)

/-- The shares are the equal split of `L`, and sum to it. -/
def Settled (L : ℤ) (records : Records ι) : Prop :=
  (∀ i rec, records.lookup i = some rec → rec.share = fairShare L records.keys i) ∧
    records.sum (fun _ rec => rec.share) = L

/-! ### The parts of an equal split -/

theorem splitShare_nonneg {L : ℤ} (hL : 0 ≤ L) (n rank : ℕ) : 0 ≤ splitShare L n rank := by
  have hbase : 0 ≤ L / n := Int.ediv_nonneg hL (Int.natCast_nonneg n)
  rw [splitShare]
  split <;> omega

/-- The parts sum to the whole. -/
theorem sum_splitShare (L : ℤ) {n : ℕ} (hn : 0 < n) :
    ((List.range n).map (splitShare L n)).sum = L := by
  have hrem : 0 ≤ L % n ∧ L % n < n :=
    ⟨Int.emod_nonneg _ (by omega), Int.emod_lt_of_pos _ (by omega)⟩
  have hdiv : L - L / n * n = L % n := by
    rw [Int.emod_def, mul_comm]
  have hcount : ∀ m : ℕ, ((List.range m).map (splitShare L n)).sum
      = L / n * m + min (m : ℤ) (L % n) := by
    intro m
    induction m with
    | zero => simp [hrem.1]
    | succ m ih =>
      rw [List.range_succ, List.map_append, List.sum_append, ih, List.map_singleton,
        List.sum_singleton, splitShare, hdiv]
      push_cast
      rw [mul_add, mul_one]
      split <;> omega
  rw [hcount, min_eq_right hrem.2.le, mul_comm]
  exact Int.mul_ediv_add_emod L n

theorem sum_fairShare {L : ℤ} {ids : List ι} (hne : ids ≠ []) (hnodup : ids.Nodup) :
    (ids.map (fairShare L ids)).sum = L := by
  have hperm : (ids.insertionSort (· ≤ ·)).Perm ids := List.perm_insertionSort _ _
  have hsorted : (ids.insertionSort (· ≤ ·)).Nodup := hperm.nodup_iff.mpr hnodup
  have hlen : (ids.insertionSort (· ≤ ·)).length = ids.length := List.length_insertionSort _ _
  rw [← (hperm.map (fairShare L ids)).sum_eq]
  have hranks : (ids.insertionSort (· ≤ ·)).map (fairShare L ids)
      = (List.range ids.length).map (splitShare L ids.length) := by
    refine List.ext_getElem (by simp [hlen]) fun k hk _ => ?_
    rw [List.getElem_map, List.getElem_map, List.getElem_range, fairShare,
      hsorted.idxOf_getElem]
  rw [hranks]
  exact sum_splitShare L (List.length_pos_iff.mpr hne)

/-! ### A heartbeat -/

section Step

variable {opts : HeartbeatOptions} {L : ℤ} {s s' : Records ι} {a : Arrival ι} {i : ι}

/-- All records report the limit `L`. -/
def Limited (L : ℤ) (records : Records ι) : Prop :=
  ∀ i rec, records.lookup i = some rec → rec.lLocal = L

/-- Where no other record has expired, a heartbeat is judged against the records there are. -/
theorem liveRecords_eq_of_live
    (hlive : ∀ e ∈ s.entries, e.1 ≠ a.report.nodeId → a.now ≤ e.2.expiresAt) :
    liveRecords opts s a.report a.now
      = s.set a.report.nodeId (upserted opts (s.lookup a.report.nodeId) a.report) := by
  rw [liveRecords, sweep, OrderedMap.filter_eq_self]
  intro id rec hid
  rw [OrderedMap.lookup_set] at hid
  split at hid
  · rename_i heq
    simp [heq]
  · rename_i hne
    have hlive := hlive (id, rec) (OrderedMap.mem_entries_of_lookup hid) (Ne.symm hne)
    simp [not_lt.mpr hlive]

/-- **What a heartbeat does** where no other record has expired and all report the limit: the node's
target is capped at what the others leave. -/
theorem applyHeartbeat_eq_of_live
    (hlive : ∀ e ∈ s.entries, e.1 ≠ a.report.nodeId → a.now ≤ e.2.expiresAt)
    (hlimit : a.report.lLocal = L) (hlimited : Limited L s) {share : ℤ}
    (hshare : share = max 0 (min (targetFor a.report.nodeId
      ((liveRecords opts s a.report a.now).keys.insertionSort (· ≤ ·)) L
      (liveRecords opts s a.report a.now) opts.allocation)
      (L - otherReserved opts s a.report.nodeId))) :
    (applyHeartbeat opts s a.report a.now).1 = s.set a.report.nodeId
        (afterGrant opts (s.lookup a.report.nodeId) a.report share) ∧
      (applyHeartbeat opts s a.report a.now).2.share
        = (afterGrant opts (s.lookup a.report.nodeId) a.report share).share := by
  have hreserved : otherReserved opts (liveRecords opts s a.report a.now) a.report.nodeId
      = otherReserved opts s a.report.nodeId := by
    rw [liveRecords_eq_of_live hlive, otherReserved, OrderedMap.sum_erase_set, otherReserved]
  have hlGlobal : aggregateOf ((liveRecords opts s a.report a.now).entries.map fun e => e.2.lLocal)
      opts.aggregate = some L := by
    refine aggregateOf_of_forall (fun hnil => ?_) (fun x hx => ?_) opts.aggregate
    · have hself : (liveRecords opts s a.report a.now).lookup a.report.nodeId = some _ :=
        lookup_liveRecords_self
      have hmem := OrderedMap.mem_entries_of_lookup hself
      rw [List.map_eq_nil_iff.mp hnil] at hmem
      exact absurd hmem List.not_mem_nil
    · obtain ⟨⟨id, rec⟩, hmem, rfl⟩ := List.mem_map.mp hx
      have hlook := OrderedMap.lookup_of_mem_entries hmem
      rw [liveRecords_eq_of_live hlive, OrderedMap.lookup_set] at hlook
      split at hlook
      · rw [← Option.some.inj hlook]
        exact hlimit
      · exact hlimited id rec hlook
  rw [Concurrency.applyHeartbeat_eq]
  dsimp only
  rw [hlGlobal, Option.getD_some, cappedShare, hreserved, ← hshare, liveRecords_eq_of_live hlive,
    OrderedMap.set_set]
  exact ⟨rfl, rfl⟩

/-- What a steady heartbeat is granted. -/
def fairGrant (opts : HeartbeatOptions) (L : ℤ) (records : Records ι) (i : ι) : ℤ :=
  max 0 (min (fairShare L records.keys i) (L - otherReserved opts records i))

/-- **What a steady heartbeat does** when all records report the limit: the node's part of an equal
split is capped at what the others leave. -/
theorem Steady.applyHeartbeat_eq (h : Steady opts L s a) (halloc : opts.allocation = .equalSplit)
    (hlimited : Limited L s) :
    (applyHeartbeat opts s a.report a.now).1 = s.set a.report.nodeId
        (afterGrant opts (s.lookup a.report.nodeId) a.report (fairGrant opts L s a.report.nodeId)) ∧
      (applyHeartbeat opts s a.report a.now).2.share
        = (afterGrant opts (s.lookup a.report.nodeId) a.report
            (fairGrant opts L s a.report.nodeId)).share := by
  refine applyHeartbeat_eq_of_live h.live h.limit hlimited ?_
  rw [halloc, targetFor, liveRecords_eq_of_live h.live, OrderedMap.keys_set_of_mem h.member,
    List.length_insertionSort, fairGrant, fairShare]

/-- What a steady heartbeat leaves of its own node's record: the grant, what is reported in flight,
and under acknowledged handoff the reserve. -/
theorem Steady.afterGrant_spec (h : Steady opts L s a) {rec : NodeRecord}
    (hrec : s.lookup a.report.nodeId = some rec) (share : ℤ) :
    (afterGrant opts (s.lookup a.report.nodeId) a.report share).share = share ∧
      (afterGrant opts (s.lookup a.report.nodeId) a.report share).inflight = a.report.inflight ∧
      (opts.handoff = true →
        (share = rec.share ∧
            (afterGrant opts (s.lookup a.report.nodeId) a.report share).unackedHigh = share) ∨
          (share ≠ rec.share ∧
            (afterGrant opts (s.lookup a.report.nodeId) a.report share).unackedHigh
              = max rec.unackedHigh share)) := by
  cases hh : opts.handoff with
  | false =>
    have hfresh : isFresh opts (s.lookup a.report.nodeId) a.report = true := by
      rw [isFresh, hh]
      rfl
    rw [afterGrant, hh]
    refine ⟨rfl, ?_, fun hon => nomatch hon⟩
    show (upserted opts (s.lookup a.report.nodeId) a.report).inflight = _
    rw [upserted, if_pos hfresh]
  | true =>
    obtain ⟨hfresh, hacked⟩ := h.handoff hh
    rw [afterGrant, hh, if_pos rfl, if_pos hfresh]
    refine ⟨rfl, ?_, fun _ => ?_⟩
    · show (upserted opts (s.lookup a.report.nodeId) a.report).inflight = _
      rw [upserted, if_pos hfresh]
    · rw [hrec, Option.elim_some] at hacked
      simp only [hrec, hacked, NodeRecord.granted, upserted, Option.elim_some]
      by_cases hsame : share = rec.share
      · exact .inl ⟨hsame, by simp [hsame]⟩
      · exact .inr ⟨hsame, by simp [hsame]⟩

end Step

/-! ### The records a history leaves -/

section History

variable {opts : HeartbeatOptions} {L : ℤ} {s s' : Records ι} {a : Arrival ι}

/-- All records report `L`; under acknowledged handoff what is reserved covers the shares, and fits
into `L`. -/
structure Consistent (opts : HeartbeatOptions) (L : ℤ) (records : Records ι) : Prop where
  limited : Limited L records
  within : opts.handoff = true → Within opts L records
  reserved : opts.handoff = true → ∀ i rec, records.lookup i = some rec →
    0 ≤ rec.share ∧ rec.share ≤ rec.unackedHigh

theorem consistent_empty (opts : HeartbeatOptions) (hL : 0 ≤ L) :
    Consistent opts L (OrderedMap.empty : Records ι) where
  limited := by rintro i rec ⟨⟩
  within _ := ⟨by rintro i rec ⟨⟩, by rintro i rec ⟨⟩, hL⟩
  reserved _ := by rintro i rec ⟨⟩

/-- A heartbeat that reports no more in flight than its node's share leaves its record with a
reserve that covers the share, and occupies no more than the grant or what it did. -/
theorem afterGrant_reserved (hhandoff : opts.handoff = true)
    (hprior : ∀ rec, s.lookup a.report.nodeId = some rec →
      0 ≤ rec.share ∧ rec.share ≤ rec.unackedHigh)
    (hheld : a.report.inflight ≤ heldShare s a) {share : ℤ} (hshare : 0 ≤ share) :
    (0 ≤ (afterGrant opts (s.lookup a.report.nodeId) a.report share).share ∧
        (afterGrant opts (s.lookup a.report.nodeId) a.report share).share
          ≤ (afterGrant opts (s.lookup a.report.nodeId) a.report share).unackedHigh) ∧
      occupied opts.handoff (afterGrant opts (s.lookup a.report.nodeId) a.report share)
        ≤ max share ((s.lookup a.report.nodeId).elim 0 (occupied opts.handoff)) := by
  have hocc : ∀ rec, occupied opts.handoff rec = max rec.unackedHigh rec.inflight := by
    intro rec
    rw [hhandoff]
    rfl
  rw [heldShare] at hheld
  simp only [afterGrant, if_pos hhandoff, hocc]
  cases hlook : s.lookup a.report.nodeId with
  | none =>
    rw [hlook] at hheld
    simp only [Option.elim_none] at hheld ⊢
    split
    · simp only [NodeRecord.granted, upserted, Option.elim_none, ite_self]
      split <;> omega
    · simp only [upserted, Option.elim_none, ite_self]
      omega
  | some rec =>
    obtain ⟨hnonneg, hle⟩ := hprior rec hlook
    rw [hlook] at hheld
    simp only [Option.elim_some, hocc] at hheld ⊢
    split
    · rename_i hfresh
      simp only [NodeRecord.granted, upserted, Option.elim_some, if_pos hfresh]
      split <;> omega
    · rename_i hstale
      simp only [upserted, Option.elim_some, if_neg hstale]
      omega

/-- **A heartbeat keeps the records consistent**, if it reports the limit and, under acknowledged
handoff, no more in flight than its node's share. -/
theorem Consistent.heartbeat (h : Consistent opts L s) (hlimit : a.report.lLocal = L)
    (hheld : opts.handoff = true → a.report.inflight ≤ heldShare s a) :
    Consistent opts L (applyHeartbeat opts s a.report a.now).1 := by
  obtain ⟨share, hshare, -, hrecords, -⟩ := applyHeartbeat_spec
    (Prod.mk.eta (p := applyHeartbeat opts s a.report a.now)).symm h.limited hlimit
  have hlook : ∀ id rec, (applyHeartbeat opts s a.report a.now).1.lookup id = some rec →
      (id = a.report.nodeId ∧ rec = afterGrant opts (s.lookup a.report.nodeId) a.report share) ∨
        s.lookup id = some rec := by
    intro id rec hrec
    rw [hrecords, OrderedMap.lookup_set] at hrec
    split at hrec
    · exact .inl ⟨by symm; assumption, (Option.some.inj hrec).symm⟩
    · rename_i hne
      rw [lookup_liveRecords_of_ne hne, Option.filter_eq_some_iff] at hrec
      exact .inr hrec.1
  have hlimited : Limited L (applyHeartbeat opts s a.report a.now).1 := by
    intro id rec hrec
    rcases hlook id rec hrec with ⟨-, rfl⟩ | hold
    · exact (lLocal_afterGrant _ _ _ _).trans hlimit
    · exact h.limited id rec hold
  have hreserved : opts.handoff = true → ∀ id rec,
      (applyHeartbeat opts s a.report a.now).1.lookup id = some rec →
        0 ≤ rec.share ∧ rec.share ≤ rec.unackedHigh := by
    intro hon id rec hrec
    rcases hlook id rec hrec with ⟨-, rfl⟩ | hold
    · exact (afterGrant_reserved hon (h.reserved hon _) (hheld hon) hshare).1
    · exact h.reserved hon id rec hold
  refine ⟨hlimited, fun hon => ⟨hlimited, fun id rec hrec => ?_, ?_⟩, hreserved⟩
  · obtain ⟨hnonneg, hle⟩ := hreserved hon id rec hrec
    rw [occupied, if_pos hon]
    omega
  · exact sum_applyHeartbeat_le (Prod.mk.eta (p := applyHeartbeat opts s a.report a.now)).symm
      h.limited hlimit (h.within hon).nonneg (h.within hon).total fun share hshare =>
        (afterGrant_reserved hon (h.reserved hon _) (hheld hon) hshare).2

/-- The records that any heartbeats of limit `L` leave are consistent. -/
theorem consistent_of_run (hL : 0 ≤ L) {log : List (ι × Grant)}
    (h : (heartbeatMachine opts).Run (Reports opts L) .empty log s) : Consistent opts L s := by
  refine Machine.Run.invariant (I := fun s _ => Consistent opts L s) (consistent_empty opts hL)
    ?_ h
  rintro s log a s' new hinv hmeets hstep
  obtain ⟨rfl, -⟩ := Prod.mk.inj (Option.some.inj hstep)
  exact hinv.heartbeat hmeets.1 hmeets.2

end History

/-! ### What a node is granted -/

section Grants

variable {opts : HeartbeatOptions} {L : ℤ} {s : Records ι} {i : ι} {rec : NodeRecord}

theorem fairShare_nonneg (hL : 0 ≤ L) (ids : List ι) (i : ι) : 0 ≤ fairShare L ids i :=
  splitShare_nonneg hL _ _

theorem sum_fairShare_records (hne : s.keys ≠ []) :
    s.sum (fun j _ => fairShare L s.keys j) = L := by
  have hsum := sum_fairShare (L := L) hne s.nodup
  rw [OrderedMap.keys, List.map_map] at hsum
  exact hsum

theorem fairGrant_le (hL : 0 ≤ L) : fairGrant opts L s i ≤ fairShare L s.keys i :=
  max_le (fairShare_nonneg hL _ _) (min_le_left _ _)

/-- Where the others occupy no more than their parts, there is room for a node's own. -/
theorem fairGrant_eq (hL : 0 ≤ L) (hrec : s.lookup i = some rec)
    (hfits : ∀ j rec, s.lookup j = some rec → occupied opts.handoff rec ≤ fairShare L s.keys j) :
    fairGrant opts L s i = fairShare L s.keys i := by
  have hothers : otherReserved opts s i ≤ (s.erase i).sum fun j _ => fairShare L s.keys j := by
    refine OrderedMap.sum_le_sum fun j rec hj => hfits j rec ?_
    rw [OrderedMap.lookup_erase] at hj
    split at hj
    · cases hj
    · exact hj
  have hsplit := OrderedMap.sum_eq_add_sum_erase (fun j _ => fairShare L s.keys j) hrec
  rw [sum_fairShare_records (List.ne_nil_of_mem (OrderedMap.mem_keys_of_lookup hrec))] at hsplit
  have hnonneg := fairShare_nonneg hL s.keys i
  rw [fairGrant]
  omega

/-- A node whose record occupies its part or more, within the limit, is granted its part. -/
theorem fairGrant_eq_of_le_occupied (hL : 0 ≤ L) (hwithin : Within opts L s)
    (hrec : s.lookup i = some rec) (hle : fairShare L s.keys i ≤ occupied opts.handoff rec) :
    fairGrant opts L s i = fairShare L s.keys i := by
  have hsplit := OrderedMap.sum_eq_add_sum_erase (fun _ rec => occupied opts.handoff rec) hrec
  have htotal := hwithin.total
  have hnonneg := fairShare_nonneg hL s.keys i
  rw [fairGrant, otherReserved]
  omega

end Grants

/-! ### Rounds -/

section Rounds

variable {opts : HeartbeatOptions} {L : ℤ} {s s' : Records ι}

/-- **What a heartbeat establishes of its node's record, a round establishes of all**: `Q` holds of
every record and is kept by every heartbeat, and `P` holds of the record a heartbeat leaves. -/
theorem all_of_round {ok : Records ι → Arrival ι → Prop} {Inv : Records ι → Prop}
    {Q P : ι → NodeRecord → Prop} (halloc : opts.allocation = .equalSplit)
    (hsteady : ∀ s a, ok s a → Steady opts L s a) (hlimited : ∀ s, Inv s → Limited L s)
    (hinv : ∀ s a, Inv s → ok s a → Inv (applyHeartbeat opts s a.report a.now).1)
    {K : List ι} (hown : ∀ s a rec, Inv s → s.keys = K →
      (∀ i rec, s.lookup i = some rec → Q i rec) → ok s a → s.lookup a.report.nodeId = some rec →
        Q a.report.nodeId (afterGrant opts (s.lookup a.report.nodeId) a.report
          (fairGrant opts L s a.report.nodeId)) ∧
        P a.report.nodeId (afterGrant opts (s.lookup a.report.nodeId) a.report
          (fairGrant opts L s a.report.nodeId)))
    (hround : Round opts ok s s') (hs : Inv s) (hkeys : s.keys = K)
    (hQ : ∀ i rec, s.lookup i = some rec → Q i rec) :
    Inv s' ∧ s'.keys = K ∧ ∀ i rec, s'.lookup i = some rec → Q i rec ∧ P i rec := by
  obtain ⟨log, hrun, hall⟩ := hround
  obtain ⟨hs', hkeys', hQ', hP'⟩ := Machine.Run.invariant (I := fun s log => Inv s ∧ s.keys = K ∧
    (∀ i rec, s.lookup i = some rec → Q i rec) ∧
      ∀ i ∈ log.map Prod.fst, ∀ rec, s.lookup i = some rec → P i rec)
    ⟨hs, hkeys, hQ, by rintro i ⟨⟩⟩ (by
      rintro s log a s' new ⟨hs, hkeys, hQ, hP⟩ hmeets hstep
      obtain ⟨rfl, rfl⟩ := Prod.mk.inj (Option.some.inj hstep)
      have hst := hsteady s a hmeets
      obtain ⟨rec, hrec⟩ := OrderedMap.exists_lookup_of_mem_keys hst.member
      obtain ⟨hQown, hPown⟩ := hown s a rec hs hkeys hQ hmeets hrec
      refine ⟨hinv s a hs hmeets, ?_, fun i rec hi => ?_, fun i hi rec hrec => ?_⟩
      all_goals rw [(hst.applyHeartbeat_eq halloc (hlimited s hs)).1] at *
      · rw [OrderedMap.keys_set_of_mem hst.member, hkeys]
      · rw [OrderedMap.lookup_set] at hi
        split at hi
        · rename_i heq
          rw [← heq, ← Option.some.inj hi]
          exact hQown
        · exact hQ i rec hi
      · rw [OrderedMap.lookup_set] at hrec
        split at hrec
        · rename_i heq
          rw [← heq, ← Option.some.inj hrec]
          exact hPown
        · rename_i hne
          rw [List.map_append, List.mem_append] at hi
          refine hP i (hi.resolve_right fun hmem => hne ?_) rec hrec
          exact (List.mem_singleton.mp hmem).symm) hrun
  refine ⟨hs', hkeys', fun i rec hi => ⟨hQ' i rec hi, hP' i ?_ rec hi⟩⟩
  rw [← hkeys] at hkeys'
  exact hall i (hkeys' ▸ OrderedMap.mem_keys_of_lookup hi)

variable {K : List ι}

/-- The share is within the node's part; under acknowledged handoff so is the reserve, or the share
is the part. -/
def AtMost (opts : HeartbeatOptions) (L : ℤ) (K : List ι) (i : ι) (rec : NodeRecord) : Prop :=
  rec.share ≤ fairShare L K i ∧
    (opts.handoff = true → rec.unackedHigh ≤ fairShare L K i ∨ rec.share = fairShare L K i)

/-- The record occupies no more than the node's part. -/
def Fits (opts : HeartbeatOptions) (L : ℤ) (K : List ι) (i : ι) (rec : NodeRecord) : Prop :=
  rec.share ≤ fairShare L K i ∧ rec.inflight ≤ fairShare L K i ∧
    (opts.handoff = true → rec.unackedHigh ≤ fairShare L K i)

omit [LinearOrder ι] in
theorem occupied_le {t : ℤ} {rec : NodeRecord} (hshare : rec.share ≤ t)
    (hinflight : rec.inflight ≤ t) (hhigh : opts.handoff = true → rec.unackedHigh ≤ t) :
    occupied opts.handoff rec ≤ t := by
  rw [occupied]
  split
  · exact max_le (hhigh (by assumption)) hinflight
  · exact max_le hshare hinflight

variable {a : Arrival ι} {rec : NodeRecord}

/-- A steady heartbeat leaves its node's share within the part. -/
theorem Steady.atMost (h : Steady opts L s a) (hL : 0 ≤ L) (hs : Consistent opts L s)
    (hrec : s.lookup a.report.nodeId = some rec) :
    AtMost opts L s.keys a.report.nodeId (afterGrant opts (s.lookup a.report.nodeId) a.report
      (fairGrant opts L s a.report.nodeId)) := by
  obtain ⟨hshare, -, hhigh⟩ := h.afterGrant_spec hrec (fairGrant opts L s a.report.nodeId)
  have hle : fairGrant opts L s a.report.nodeId ≤ _ := fairGrant_le hL
  refine ⟨hshare.trans_le hle, fun hon => ?_⟩
  by_cases hcovered : fairShare L s.keys a.report.nodeId ≤ rec.unackedHigh
  · refine .inr (hshare.trans (fairGrant_eq_of_le_occupied hL (hs.within hon) hrec ?_))
    rw [occupied, if_pos hon]
    exact hcovered.trans (le_max_left _ _)
  · left
    rcases hhigh hon with ⟨-, heq⟩ | ⟨-, heq⟩ <;> rw [heq] <;> omega

/-- A steady heartbeat of a node whose share was within the part, with what it reports in flight
within the share it held, leaves a record that fits. -/
theorem Steady.fits (h : Steady opts L s a) (hL : 0 ≤ L) (hs : Consistent opts L s)
    (hrec : s.lookup a.report.nodeId = some rec) (hheld : a.report.inflight ≤ heldShare s a)
    (hprior : AtMost opts L s.keys a.report.nodeId rec) :
    Fits opts L s.keys a.report.nodeId (afterGrant opts (s.lookup a.report.nodeId) a.report
      (fairGrant opts L s a.report.nodeId)) := by
  obtain ⟨hshare, hinflight, hhigh⟩ := h.afterGrant_spec hrec (fairGrant opts L s a.report.nodeId)
  have hle : fairGrant opts L s a.report.nodeId ≤ _ := fairGrant_le hL
  rw [heldShare, hrec, Option.elim_some] at hheld
  refine ⟨hshare.trans_le hle, hinflight.trans_le (hheld.trans hprior.1), fun hon => ?_⟩
  rcases hhigh hon with ⟨-, heq⟩ | ⟨hchanged, heq⟩
  · exact heq.trans_le hle
  · rcases hprior.2 hon with hcovered | hpart
    · exact heq.trans_le (max_le hcovered hle)
    · -- a share that is the part already does not change again
      have hreserved := (hs.reserved hon _ _ hrec).2
      refine absurd (fairGrant_eq_of_le_occupied hL (hs.within hon) hrec ?_) (hpart ▸ hchanged)
      rw [occupied, if_pos hon]
      omega

/-- Where all records fit, a steady heartbeat is granted the part. -/
theorem Steady.share_eq (h : Steady opts L s a) (hL : 0 ≤ L)
    (hrec : s.lookup a.report.nodeId = some rec)
    (hfits : ∀ i rec, s.lookup i = some rec → Fits opts L s.keys i rec) :
    (afterGrant opts (s.lookup a.report.nodeId) a.report
      (fairGrant opts L s a.report.nodeId)).share = fairShare L s.keys a.report.nodeId := by
  rw [(h.afterGrant_spec hrec _).1]
  exact fairGrant_eq hL hrec fun i rec hi =>
    occupied_le (hfits i rec hi).1 (hfits i rec hi).2.1 (hfits i rec hi).2.2

/-- What a steady heartbeat of a node whose in-flight is within the granted share leaves fits,
without acknowledged handoff. -/
theorem SteadyGranted.fits (h : SteadyGranted opts L s a) (hL : 0 ≤ L) (hs : Consistent opts L s)
    (halloc : opts.allocation = .equalSplit) (hoff : opts.handoff = false)
    (hrec : s.lookup a.report.nodeId = some rec) :
    Fits opts L s.keys a.report.nodeId (afterGrant opts (s.lookup a.report.nodeId) a.report
      (fairGrant opts L s a.report.nodeId)) := by
  obtain ⟨hst, hgranted⟩ := h
  obtain ⟨hshare, hinflight, -⟩ := hst.afterGrant_spec hrec (fairGrant opts L s a.report.nodeId)
  have hle : fairGrant opts L s a.report.nodeId ≤ _ := fairGrant_le hL
  rw [(hst.applyHeartbeat_eq halloc hs.limited).2, hshare] at hgranted
  exact ⟨hshare.trans_le hle, hinflight.trans_le (hgranted.trans hle), fun hon => by
    rw [hoff] at hon
    cases hon⟩

theorem settled_of_forall (hkeys : s.keys = K) (hne : K ≠ [])
    (h : ∀ i rec, s.lookup i = some rec → rec.share = fairShare L K i) : Settled L s := by
  subst hkeys
  refine ⟨h, ?_⟩
  rw [OrderedMap.sum_congr h]
  exact sum_fairShare_records hne

/-- **Two rounds**, without acknowledged handoff. -/
theorem settled_of_two_rounds (halloc : opts.allocation = .equalSplit) (hL : 0 ≤ L)
    (hoff : opts.handoff = false) {s₀ s₁ s₂ : Records ι} (hs : Consistent opts L s₀)
    (hne : s₀.keys ≠ []) (h₁ : Round opts (SteadyGranted opts L) s₀ s₁)
    (h₂ : Round opts (SteadyGranted opts L) s₁ s₂) : Settled L s₂ := by
  have hinv : ∀ (s : Records ι) (a : Arrival ι), Consistent opts L s → SteadyGranted opts L s a →
      Consistent opts L (applyHeartbeat opts s a.report a.now).1 := fun s a hs ha =>
    hs.heartbeat ha.1.limit fun hon => by
      rw [hoff] at hon
      cases hon
  obtain ⟨hs₁, hkeys₁, hfits⟩ := all_of_round (Q := fun _ _ => True)
    (P := Fits opts L s₀.keys) halloc (fun s a ha => ha.1) (fun s hs => hs.limited) hinv
    (fun s a rec hs hkeys _ ha hrec => ⟨trivial, hkeys ▸ ha.fits hL hs halloc hoff hrec⟩) h₁ hs rfl
    (fun _ _ _ => trivial)
  obtain ⟨-, hkeys₂, hshares⟩ := all_of_round (Q := Fits opts L s₀.keys)
    (P := fun i rec => rec.share = fairShare L s₀.keys i) halloc (fun s a ha => ha.1)
    (fun s hs => hs.limited) hinv
    (fun s a rec hs hkeys hfits ha hrec => by
      rw [← hkeys] at hfits ⊢
      exact ⟨ha.fits hL hs halloc hoff hrec, ha.1.share_eq hL hrec hfits⟩) h₂ hs₁ hkeys₁
    (fun i rec hi => (hfits i rec hi).2)
  exact settled_of_forall hkeys₂ hne fun i rec hi => (hshares i rec hi).2

/-- **Three rounds**, with acknowledged handoff or without. -/
theorem settled_of_three_rounds (halloc : opts.allocation = .equalSplit) (hL : 0 ≤ L)
    {s₀ s₁ s₂ s₃ : Records ι} (hs : Consistent opts L s₀) (hne : s₀.keys ≠ [])
    (h₁ : Round opts (SteadyHeld opts L) s₀ s₁) (h₂ : Round opts (SteadyHeld opts L) s₁ s₂)
    (h₃ : Round opts (SteadyHeld opts L) s₂ s₃) : Settled L s₃ := by
  have hinv : ∀ (s : Records ι) (a : Arrival ι), Consistent opts L s → SteadyHeld opts L s a →
      Consistent opts L (applyHeartbeat opts s a.report a.now).1 := fun s a hs ha =>
    hs.heartbeat ha.1.limit fun _ => ha.2
  obtain ⟨hs₁, hkeys₁, hmost⟩ := all_of_round (Q := fun _ _ => True)
    (P := AtMost opts L s₀.keys) halloc (fun s a ha => ha.1) (fun s hs => hs.limited) hinv
    (fun s a rec hs hkeys _ ha hrec => ⟨trivial, hkeys ▸ ha.1.atMost hL hs hrec⟩) h₁ hs rfl
    (fun _ _ _ => trivial)
  obtain ⟨hs₂, hkeys₂, hfits⟩ := all_of_round (Q := AtMost opts L s₀.keys)
    (P := Fits opts L s₀.keys) halloc (fun s a ha => ha.1) (fun s hs => hs.limited) hinv
    (fun s a rec hs hkeys hmost ha hrec => by
      rw [← hkeys] at hmost ⊢
      exact ⟨ha.1.atMost hL hs hrec, ha.1.fits hL hs hrec ha.2 (hmost _ rec hrec)⟩) h₂ hs₁ hkeys₁
    (fun i rec hi => (hmost i rec hi).2)
  obtain ⟨-, hkeys₃, hshares⟩ := all_of_round (Q := Fits opts L s₀.keys)
    (P := fun i rec => rec.share = fairShare L s₀.keys i) halloc (fun s a ha => ha.1)
    (fun s hs => hs.limited) hinv
    (fun s a rec hs hkeys hfits ha hrec => by
      rw [← hkeys] at hfits ⊢
      have hprior := hfits _ rec hrec
      exact ⟨ha.1.fits hL hs hrec ha.2 ⟨hprior.1, fun hon => .inl (hprior.2.2 hon)⟩,
        ha.1.share_eq hL hrec hfits⟩) h₃ hs₂ hkeys₂
    (fun i rec hi => (hfits i rec hi).2)
  exact settled_of_forall hkeys₃ hne fun i rec hi => (hshares i rec hi).2

end Rounds

/-! ### Runs -/

/-- **Equal split settles.** From any records that heartbeats of a constant limit leave, with stable
membership: without acknowledged handoff, and with what each node has in flight within the share it
is granted, the shares are the equal split after two rounds. With it, or with what each node has in
flight within the share it held, they are after three. -/
theorem equalSplit_settles {opts : HeartbeatOptions} (halloc : opts.allocation = .equalSplit)
    {L : ℤ} (hL : 0 ≤ L) {log : List (ι × Grant)} {s₀ : Records ι}
    (hrun : (heartbeatMachine opts).Run (Reports opts L) .empty log s₀) (hne : s₀.keys ≠ []) :
    (opts.handoff = false → ∀ s₁ s₂, Round opts (SteadyGranted opts L) s₀ s₁ →
      Round opts (SteadyGranted opts L) s₁ s₂ → Settled L s₂) ∧
    ∀ s₁ s₂ s₃, Round opts (SteadyHeld opts L) s₀ s₁ → Round opts (SteadyHeld opts L) s₁ s₂ →
      Round opts (SteadyHeld opts L) s₂ s₃ → Settled L s₃ :=
  ⟨fun hoff _ _ => settled_of_two_rounds halloc hL hoff (consistent_of_run hL hrun) hne,
    fun _ _ _ => settled_of_three_rounds halloc hL (consistent_of_run hL hrun) hne⟩

/-! ### The conditions are needed -/

/-- The records after a list of heartbeats. -/
def heartbeats (opts : HeartbeatOptions) (s : Records ι) (l : List (Arrival ι)) : Records ι :=
  l.foldl (fun s a => (applyHeartbeat opts s a.report a.now).1) s

/-- A list of heartbeats is a run, with an output for each. -/
theorem run_heartbeats {opts : HeartbeatOptions} {ok : Records ι → Arrival ι → Prop} {s : Records ι}
    {l : List (Arrival ι)} (h : (heartbeatMachine opts).AllOk ok s l) :
    ∃ log, (heartbeatMachine opts).Run ok s log (heartbeats opts s l) ∧
      log.map Prod.fst = l.map (·.report.nodeId) := by
  have hexec : ∀ (l : List (Arrival ι)) (s : Records ι), ∃ log,
      (heartbeatMachine opts).exec s l = some (heartbeats opts s l, log) ∧
        log.map Prod.fst = l.map (·.report.nodeId) := by
    intro l
    induction l with
    | nil => exact fun s => ⟨[], rfl, rfl⟩
    | cons a l ih =>
      intro s
      obtain ⟨log, hl, hids⟩ := ih (applyHeartbeat opts s a.report a.now).1
      refine ⟨(a.report.nodeId, (applyHeartbeat opts s a.report a.now).2) :: log, ?_, ?_⟩
      · show ((heartbeatMachine opts).exec (applyHeartbeat opts s a.report a.now).1 l).map _ = _
        rw [hl]
        rfl
      · rw [List.map_cons, List.map_cons, hids]
  obtain ⟨log, hl, hids⟩ := hexec l s
  exact ⟨log, run_of_exec hl h, hids⟩

theorem round_heartbeats {opts : HeartbeatOptions} {ok : Records ι → Arrival ι → Prop}
    {s : Records ι} {l : List (Arrival ι)} (h : (heartbeatMachine opts).AllOk ok s l)
    (hall : ∀ i ∈ s.keys, i ∈ l.map (·.report.nodeId)) : Round opts ok s (heartbeats opts s l) := by
  obtain ⟨log, hrun, hids⟩ := run_heartbeats h
  exact ⟨log, hrun, hids ▸ hall⟩

/-- A heartbeat of `i`, number `seq`, that reports the limit four and confirms `gen`. -/
def four (i : Bool) (inflight seq gen : ℤ) : Arrival Bool :=
  ⟨⟨i, 4, inflight, 1000, some seq, some gen⟩, 0⟩

/-- Two nodes heartbeat for the first time: the one that comes first is granted the limit. -/
def joins : List (Arrival Bool) := [four true 0 1 0, four false 0 1 0]

/-- Each node has its turn. -/
def turns (inflight seq gen : ℤ) : List (Arrival Bool) :=
  [four false 0 seq 0, four true inflight seq gen]

theorem equalSplit_settles_two_nodes :
    Settled 4 (heartbeats (equalSplit false) (heartbeats (equalSplit false)
      (heartbeats (equalSplit false) .empty joins) (turns 0 2 0)) (turns 0 3 0)) := by
  have hjoins : (heartbeatMachine (equalSplit false)).AllOk (Reports (equalSplit false) 4) .empty
      joins := by
    decide +kernel
  obtain ⟨log, hrun, -⟩ := run_heartbeats hjoins
  exact (equalSplit_settles rfl (by decide) hrun (by decide +kernel)).1 rfl _ _
    (round_heartbeats (by decide +kernel) (by decide +kernel))
    (round_heartbeats (by decide +kernel) (by decide +kernel))

/-- **Two heartbeats each are not enough.** A node that has both its turns while the other holds the
limit is left with nothing. With acknowledged handoff, or with requests in flight that were admitted
under the share before, not even two rounds are. -/
theorem two_heartbeats_each_fall_short :
    (¬ ∀ (s₀ s : Records Bool) (log₀ log : List (Bool × Grant)),
      (heartbeatMachine (equalSplit false)).Run (Reports (equalSplit false) 4) .empty log₀ s₀ →
      (heartbeatMachine (equalSplit false)).Run (fun s a => SteadyHeld (equalSplit false) 4 s a ∧
        SteadyGranted (equalSplit false) 4 s a) s₀ log s →
      (∀ i ∈ s₀.keys, (log.map Prod.fst).count i = 2) → Settled 4 s) ∧
    ∀ handoff, ¬ ∀ (s₀ s₁ s₂ : Records Bool) (log₀ : List (Bool × Grant)),
      (heartbeatMachine (equalSplit handoff)).Run (Reports (equalSplit handoff) 4) .empty log₀ s₀ →
      Round (equalSplit handoff) (SteadyHeld (equalSplit handoff) 4) s₀ s₁ →
      Round (equalSplit handoff) (SteadyHeld (equalSplit handoff) 4) s₁ s₂ → Settled 4 s₂ := by
  have hjoins : ∀ handoff, (heartbeatMachine (equalSplit handoff)).AllOk
      (Reports (equalSplit handoff) 4) .empty joins := by
    decide +kernel
  constructor
  · intro hall
    obtain ⟨log₀, hrun₀, -⟩ := run_heartbeats (hjoins false)
    have hturns : (heartbeatMachine (equalSplit false)).AllOk (fun s a =>
        SteadyHeld (equalSplit false) 4 s a ∧ SteadyGranted (equalSplit false) 4 s a)
        (heartbeats (equalSplit false) .empty joins)
        [four false 0 2 0, four false 0 3 0, four true 0 2 0, four true 0 3 0] := by
      decide +kernel
    obtain ⟨log, hrun, hids⟩ := run_heartbeats hturns
    have hsettled := hall _ _ _ _ hrun₀ hrun (by rw [hids]; decide +kernel)
    exact absurd hsettled.2 (by decide +kernel)
  · intro handoff hall
    -- the node of the limit reports four in flight, and still holds two of them
    have hfirst : ∀ handoff, (heartbeatMachine (equalSplit handoff)).AllOk
        (SteadyHeld (equalSplit handoff) 4) (heartbeats (equalSplit handoff) .empty joins)
          (turns 4 2 1) := by
      decide +kernel
    have hsecond : ∀ handoff, (heartbeatMachine (equalSplit handoff)).AllOk
        (SteadyHeld (equalSplit handoff) 4) (heartbeats (equalSplit handoff)
          (heartbeats (equalSplit handoff) .empty joins) (turns 4 2 1)) (turns 2 3 2) := by
      decide +kernel
    obtain ⟨log₀, hrun₀, -⟩ := run_heartbeats (hjoins handoff)
    have hsettled := hall _ _ _ _ hrun₀
      (round_heartbeats (hfirst handoff) (by cases handoff <;> decide +kernel))
      (round_heartbeats (hsecond handoff) (by cases handoff <;> decide +kernel))
    refine absurd hsettled.2 ?_
    cases handoff <;> decide +kernel

end ThrottleKit.Concurrency
