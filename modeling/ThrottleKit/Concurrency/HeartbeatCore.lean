import Mathlib.Algebra.Order.Group.Int
import Mathlib.Algebra.Order.Ring.Rat
import Mathlib.Data.List.Sort
import ThrottleKit.Lib.OrderedMap

/-!
# What the coordinator computes for a heartbeat

The coordinator keeps one record for each live node of a key. A heartbeat upserts the record of the
node that sent it, evicts the expired ones, folds the reported limits into one, takes the node's
target share of it, and grants as much of the target as the other records leave.

`upserted`, `sweep`, `cappedShare` and `granted` name the stages of `applyHeartbeat`. It is a
function of one key's records; the key of a report only selects them.

## Main definitions

* `NodeRecord`, `Report`, `Grant` — the data
* `applyHeartbeat` — the computation, and `occupied`, what the cap reserves for a record

## Main results

* `applyHeartbeat_spec` — what a heartbeat does when all limits agree
* `sum_applyHeartbeat_le` — the records stay within the limit
-/

namespace ThrottleKit.Concurrency

variable {ι : Type} [LinearOrder ι]

/-- One node's heartbeat report. -/
structure Report (ι : Type) where
  nodeId : ι
  lLocal : ℤ
  inflight : ℤ
  /-- Lease expiry. -/
  expiresAt : ℚ
  seq : Option ℤ
  appliedGen : Option ℤ
deriving DecidableEq

/-- The coordinator's grant back to one node. -/
structure Grant where
  share : ℤ
  lGlobal : ℤ
  nodes : ℕ
  gen : Option ℤ
deriving DecidableEq

/-- One node's last report, the share it was granted, and the handoff bookkeeping. -/
@[ext]
structure NodeRecord where
  lLocal : ℤ
  inflight : ℤ
  expiresAt : ℚ
  share : ℤ
  /-- The generation of `share`. -/
  committedGen : ℤ
  /-- The freshest heartbeat processed. -/
  maxSeq : ℤ
  /-- The largest share granted since the node last caught up. -/
  unackedHigh : ℤ
deriving DecidableEq

inductive Aggregate
  | min
  | median
deriving DecidableEq

inductive Allocation
  | equalSplit
  | demandProportional
deriving DecidableEq

/-- Aggregation, allocation and handoff policy. -/
structure HeartbeatOptions where
  aggregate : Aggregate
  allocation : Allocation
  handoff : Bool

/-- Lower median and equal split, with acknowledged handoff or without. -/
def equalSplit (handoff : Bool) : HeartbeatOptions := ⟨.median, .equalSplit, handoff⟩

/-- The records of the live nodes of a key. -/
abbrev Records (ι : Type) : Type := OrderedMap ι NodeRecord

/-- Aggregate the live limits: the least, or the lower median. -/
def aggregateOf (values : List ℤ) : Aggregate → Option ℤ
  | .min => values.min?
  | .median => (values.insertionSort (· ≤ ·))[(values.length - 1) / 2]?

/-- The share of an equal split of `total` over `n` for the one of rank `rank`. -/
def splitShare (total : ℤ) (n rank : ℕ) : ℤ :=
  let base := total / n
  let rem := total - base * n
  base + if rank < rem then 1 else 0

/-- The target of `selfId`, by `sortedIds`, the live nodes in order. -/
def targetFor (selfId : ι) (sortedIds : List ι) (lGlobal : ℤ) (state : Records ι) :
    Allocation → ℤ
  | .equalSplit => splitShare lGlobal sortedIds.length (sortedIds.idxOf selfId)
  | .demandProportional =>
    let isHungry id := (state.lookup id).any fun rec => rec.share ≤ rec.inflight
    let hungry := sortedIds.filter isHungry
    let reservedForSatisfied := (sortedIds.map fun id =>
      if isHungry id then 0 else (state.lookup id).elim 0 (·.inflight + 1)).sum
    match state.lookup selfId with
    | some self =>
      if self.inflight < self.share then self.inflight + 1
      else if hungry.length = 0 then self.inflight + 1
      else max 1 (splitShare (max 0 (lGlobal - reservedForSatisfied)) hungry.length
        (hungry.idxOf selfId))
    -- `selfId` is live
    | none => 0

/-- `report.seq ?? -1`. -/
def Report.seqNo (report : Report ι) : ℤ := report.seq.getD (-1)

/-- `report.appliedGen ?? -1`. -/
def Report.ackedGen (report : Report ι) : ℤ := report.appliedGen.getD (-1)

/-- Whether the report advances the record. -/
def isFresh (opts : HeartbeatOptions) (prior : Option NodeRecord) (report : Report ι) : Bool :=
  !opts.handoff || report.seqNo < 0 || prior.elim 0 (·.maxSeq) < report.seqNo

/-- Step 1: the record of the reporting node, its grant carried forward. -/
def upserted (opts : HeartbeatOptions) (prior : Option NodeRecord) (report : Report ι) :
    NodeRecord where
  lLocal := report.lLocal
  inflight := if isFresh opts prior report then report.inflight
    else prior.elim report.inflight (·.inflight)
  expiresAt := report.expiresAt
  share := prior.elim 0 (·.share)
  committedGen := prior.elim 0 (·.committedGen)
  maxSeq := if opts.handoff then max (prior.elim 0 (·.maxSeq)) report.seqNo else 0
  unackedHigh := prior.elim 0 (·.unackedHigh)

/-- Steps 1 and 2: upsert the reporting node, evict the others that have expired. -/
def sweep (state : Records ι) (self : NodeRecord) (selfId : ι) (now : ℚ) : Records ι :=
  (state.set selfId self).filter fun id rec => id = selfId || !(rec.expiresAt < now)

/-- The records a heartbeat is judged against. -/
def liveRecords (opts : HeartbeatOptions) (state : Records ι) (report : Report ι) (now : ℚ) :
    Records ι :=
  sweep state (upserted opts (state.lookup report.nodeId) report) report.nodeId now

/-- What the cap reserves for a record of another node. -/
def occupied (handoff : Bool) (rec : NodeRecord) : ℤ :=
  if handoff then max rec.unackedHigh rec.inflight else max rec.share rec.inflight

/-- What the nodes other than `selfId` occupy. -/
def otherReserved (opts : HeartbeatOptions) (state : Records ι) (selfId : ι) : ℤ :=
  (state.erase selfId).sum fun _ rec => occupied opts.handoff rec

/-- Step 5: the target, capped at what no other live node occupies. -/
def cappedShare (opts : HeartbeatOptions) (state : Records ι) (selfId : ι) (target lGlobal : ℤ) :
    ℤ :=
  max 0 (min target (lGlobal - otherReserved opts state selfId))

/-- Step 6 under acknowledged handoff: record the grant and its generation, and drop the floor once
the node has confirmed the current one. -/
def NodeRecord.granted (self : NodeRecord) (share appliedGen : ℤ) : NodeRecord :=
  let gen := if share ≠ self.share then self.committedGen + 1 else self.committedGen
  { self with
    share := share
    committedGen := gen
    unackedHigh := if gen ≤ appliedGen then share else max self.unackedHigh share }

/-- One node's heartbeat. -/
def applyHeartbeat (opts : HeartbeatOptions) (state : Records ι) (report : Report ι) (now : ℚ) :
    Records ι × Grant :=
  let prior := state.lookup report.nodeId
  let self := upserted opts prior report
  let live := liveRecords opts state report now
  -- the map holds the reporting node, so there is a value to aggregate
  let lGlobal := (aggregateOf (live.entries.map fun e => e.2.lLocal) opts.aggregate).getD 0
  let sorted := live.keys.insertionSort (· ≤ ·)
  let target := targetFor report.nodeId sorted lGlobal live opts.allocation
  let share := cappedShare opts live report.nodeId target lGlobal
  if opts.handoff then
    let self := if isFresh opts prior report then self.granted share report.ackedGen else self
    (live.set report.nodeId self, ⟨self.share, lGlobal, live.size, some self.committedGen⟩)
  else (live.set report.nodeId { self with share := share }, ⟨share, lGlobal, live.size, none⟩)

/-! ### The aggregate -/

/-- The aggregate of equal values is that value. -/
theorem aggregateOf_of_forall {values : List ℤ} {v : ℤ} (hne : values ≠ [])
    (h : ∀ x ∈ values, x = v) (agg : Aggregate) : aggregateOf values agg = some v := by
  have hpos : 0 < values.length := List.length_pos_iff.mpr hne
  cases agg with
  | min =>
    have hrep : values = List.replicate values.length v := List.eq_replicate_of_mem h
    show values.min? = some v
    rw [hrep, List.min?_replicate_of_pos hpos]
  | median =>
    have hlt : (values.length - 1) / 2 < (values.insertionSort (· ≤ ·)).length := by
      rw [List.length_insertionSort]
      omega
    show (values.insertionSort (· ≤ ·))[(values.length - 1) / 2]? = some v
    rw [List.getElem?_eq_getElem hlt]
    exact congrArg some (h _ ((List.mem_insertionSort _).mp (List.getElem_mem hlt)))

/-! ### The records after a heartbeat -/

section Sweep

variable {opts : HeartbeatOptions} {state : Records ι} {report : Report ι} {now : ℚ}

theorem lookup_liveRecords_self : (liveRecords opts state report now).lookup report.nodeId
    = some (upserted opts (state.lookup report.nodeId) report) := by
  rw [liveRecords, sweep, OrderedMap.lookup_filter, OrderedMap.lookup_set_self, Option.filter_some]
  simp

theorem lookup_liveRecords_of_ne {id : ι} (h : report.nodeId ≠ id) :
    (liveRecords opts state report now).lookup id
      = (state.lookup id).filter fun rec => !(rec.expiresAt < now) := by
  rw [liveRecords, sweep, OrderedMap.lookup_filter, OrderedMap.lookup_set_of_ne _ _ h]
  simp [Ne.symm h]

/-- The others that survive occupy no more than the others that there were. -/
theorem otherReserved_liveRecords_le
    (h : ∀ id rec, state.lookup id = some rec → 0 ≤ occupied opts.handoff rec) :
    otherReserved opts (liveRecords opts state report now) report.nodeId
      ≤ otherReserved opts state report.nodeId := by
  rw [otherReserved, liveRecords, sweep, OrderedMap.sum_erase_filter_set]
  refine OrderedMap.sum_filter_le _ fun id rec hid => h id rec ?_
  rw [OrderedMap.lookup_erase] at hid
  split at hid
  · cases hid
  · exact hid

end Sweep

/-- The record a heartbeat leaves of its own node, given the share of step 5. -/
def afterGrant (opts : HeartbeatOptions) (prior : Option NodeRecord) (report : Report ι)
    (share : ℤ) : NodeRecord :=
  let self := upserted opts prior report
  if opts.handoff then
    if isFresh opts prior report then self.granted share report.ackedGen else self
  else { self with share := share }

/-- The record left and the grant made, in one shape for both modes. -/
theorem applyHeartbeat_eq (opts : HeartbeatOptions) (state : Records ι) (report : Report ι)
    (now : ℚ) : applyHeartbeat opts state report now =
      let live := liveRecords opts state report now
      let lGlobal := (aggregateOf (live.entries.map fun e => e.2.lLocal) opts.aggregate).getD 0
      let sorted := live.keys.insertionSort (· ≤ ·)
      let target := targetFor report.nodeId sorted lGlobal live opts.allocation
      let self := afterGrant opts (state.lookup report.nodeId) report
        (cappedShare opts live report.nodeId target lGlobal)
      (live.set report.nodeId self,
        ⟨self.share, lGlobal, live.size,
          if opts.handoff then some self.committedGen else none⟩) := by
  unfold applyHeartbeat afterGrant
  cases opts.handoff <;> rfl

/-- When nothing lives but the reporting node, and nothing is known of it, a heartbeat is the first
of its key. -/
theorem applyHeartbeat_of_expired {opts : HeartbeatOptions} {state : Records ι} {report : Report ι}
    {now : ℚ} (hself : state.lookup report.nodeId = none)
    (h : ∀ id rec, state.lookup id = some rec → rec.expiresAt < now) :
    applyHeartbeat opts state report now = applyHeartbeat opts .empty report now := by
  have hlive : liveRecords opts state report now = liveRecords opts .empty report now := by
    rw [liveRecords, liveRecords, hself, OrderedMap.lookup_empty, sweep, sweep,
      OrderedMap.filter_set_of_forall hself, OrderedMap.filter_set_of_forall
        (OrderedMap.lookup_empty _)]
    · intro id rec hrec
      cases hrec
    · simp
    · intro id rec hrec
      have hne : id ≠ report.nodeId := fun heq => by
        rw [heq, hself] at hrec
        cases hrec
      simp [hne, h id rec hrec]
    · simp
  rw [applyHeartbeat_eq, applyHeartbeat_eq, hlive, hself, OrderedMap.lookup_empty]

omit [LinearOrder ι] in
theorem lLocal_afterGrant (opts : HeartbeatOptions) (prior : Option NodeRecord) (report : Report ι)
    (share : ℤ) : (afterGrant opts prior report share).lLocal = report.lLocal := by
  unfold afterGrant
  split
  · split <;> rfl
  · rfl

omit [LinearOrder ι] in
theorem expiresAt_afterGrant (opts : HeartbeatOptions) (prior : Option NodeRecord)
    (report : Report ι) (share : ℤ) :
    (afterGrant opts prior report share).expiresAt = report.expiresAt := by
  unfold afterGrant
  split
  · split <;> rfl
  · rfl

/-- **What a heartbeat does** when every record reports the limit `L`: for a share that fits into
what the surviving others leave, the records are the survivors with the reporting node's record
after that share, and the grant is the one recorded. -/
theorem applyHeartbeat_spec {opts : HeartbeatOptions} {state state' : Records ι} {report : Report ι}
    {now : ℚ} {grant : Grant} {L : ℤ} (h : applyHeartbeat opts state report now = (state', grant))
    (hlimit : ∀ id rec, state.lookup id = some rec → rec.lLocal = L) (hreport : report.lLocal = L) :
    ∃ share, 0 ≤ share ∧
      (otherReserved opts (liveRecords opts state report now) report.nodeId ≤ L →
        share + otherReserved opts (liveRecords opts state report now) report.nodeId ≤ L) ∧
      state' = (liveRecords opts state report now).set report.nodeId
        (afterGrant opts (state.lookup report.nodeId) report share) ∧
      grant.share = (afterGrant opts (state.lookup report.nodeId) report share).share ∧
      (opts.handoff = true → grant.gen
        = some (afterGrant opts (state.lookup report.nodeId) report share).committedGen) := by
  have hself : (liveRecords opts state report now).lookup report.nodeId
      = some (upserted opts (state.lookup report.nodeId) report) := lookup_liveRecords_self
  have hlGlobal : aggregateOf ((liveRecords opts state report now).entries.map fun e => e.2.lLocal)
      opts.aggregate = some L := by
    refine aggregateOf_of_forall ?_ ?_ opts.aggregate
    · exact List.ne_nil_of_mem (List.mem_map_of_mem (OrderedMap.mem_entries_of_lookup hself))
    · intro x hx
      obtain ⟨⟨id, rec⟩, hmem, rfl⟩ := List.mem_map.mp hx
      have hlook := OrderedMap.lookup_of_mem_entries hmem
      by_cases hid : report.nodeId = id
      · subst hid
        rw [hself] at hlook
        obtain rfl := Option.some.inj hlook
        exact hreport
      · rw [lookup_liveRecords_of_ne hid, Option.filter_eq_some_iff] at hlook
        exact hlimit id rec hlook.1
  simp only [applyHeartbeat_eq, hlGlobal, Option.getD_some] at h
  -- the cap holds for any target
  generalize targetFor report.nodeId _ _ _ _ = target at h
  obtain ⟨rfl, rfl⟩ := Prod.mk.inj h
  refine ⟨cappedShare opts (liveRecords opts state report now) report.nodeId target L,
    le_max_left _ _, fun hle => ?_, rfl, rfl, fun hon => if_pos hon⟩
  rw [cappedShare]
  omega

/-- Whatever the limits, a heartbeat leaves the survivors and a record of its own node with the
reported expiry. -/
theorem applyHeartbeat_records (opts : HeartbeatOptions) (state : Records ι) (report : Report ι)
    (now : ℚ) : ∃ rec, (applyHeartbeat opts state report now).1
      = (liveRecords opts state report now).set report.nodeId rec ∧
        rec.expiresAt = report.expiresAt := by
  rw [applyHeartbeat_eq]
  exact ⟨_, rfl, expiresAt_afterGrant _ _ _ _⟩

/-- **The records stay within the limit** when all report it and the heartbeat leaves its node's
record occupying no more than the granted share, or what it did. -/
theorem sum_applyHeartbeat_le {opts : HeartbeatOptions} {state state' : Records ι}
    {report : Report ι} {now : ℚ} {grant : Grant} {L : ℤ}
    (h : applyHeartbeat opts state report now = (state', grant))
    (hlimit : ∀ id rec, state.lookup id = some rec → rec.lLocal = L) (hreport : report.lLocal = L)
    (hnonneg : ∀ id rec, state.lookup id = some rec → 0 ≤ occupied opts.handoff rec)
    (hsum : state.sum (fun _ rec => occupied opts.handoff rec) ≤ L)
    (hself : ∀ share, 0 ≤ share →
      occupied opts.handoff (afterGrant opts (state.lookup report.nodeId) report share)
        ≤ max share ((state.lookup report.nodeId).elim 0 (occupied opts.handoff))) :
    state'.sum (fun _ rec => occupied opts.handoff rec) ≤ L := by
  obtain ⟨share, hshare, hcap, rfl, -⟩ := applyHeartbeat_spec h hlimit hreport
  have hothers : otherReserved opts (liveRecords opts state report now) report.nodeId
      ≤ otherReserved opts state report.nodeId := otherReserved_liveRecords_le hnonneg
  have hsplit : (state.lookup report.nodeId).elim 0 (occupied opts.handoff)
      + otherReserved opts state report.nodeId ≤ L ∧
      0 ≤ (state.lookup report.nodeId).elim 0 (occupied opts.handoff) := by
    cases hprior : state.lookup report.nodeId with
    | none =>
      rw [← OrderedMap.sum_erase_of_lookup_eq_none _ hprior] at hsum
      exact ⟨(zero_add _).trans_le hsum, le_rfl⟩
    | some rec =>
      rw [OrderedMap.sum_eq_add_sum_erase _ hprior] at hsum
      exact ⟨hsum, hnonneg _ rec hprior⟩
  have hrec := hself share hshare
  have hnew := OrderedMap.sum_set (fun _ rec => occupied opts.handoff rec)
    (liveRecords opts state report now) report.nodeId
    (afterGrant opts (state.lookup report.nodeId) report share)
  rw [hnew]
  rw [otherReserved] at hcap hothers
  omega

end ThrottleKit.Concurrency
