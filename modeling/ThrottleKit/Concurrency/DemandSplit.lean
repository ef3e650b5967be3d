import Mathlib.Order.Filter.AtTopBot.Basic
import Mathlib.Order.Filter.Finite
import ThrottleKit.Concurrency.EqualSplit

/-!
# A node that finds a slot keeps one

With demand-proportional allocation every heartbeat aims at one slot at least. What its node is
granted is capped at what the other records leave, and that may be nothing: nodes whose in-flight is
below their share keep it, and one slot more, and where these take up the limit, a node without a
share is granted none, however long it heartbeats and however small the fleet.

The cap is all that stands in the way. A node that finds a slot at one of its heartbeats has a share
from then on, so all nodes have one in the end just where each of them finds a slot once.

## Main definitions

* `Turn`, `KeepsBeating` — the heartbeats of a fleet of constant limit and stable membership
* `SlotLeft` — what a node has to find
* `Secured` — a share that no other node's heartbeat takes away

## Main results

* `Turn.secured`, `Turn.keeps_secured` — what a heartbeat does for its node and for the others
* `demandProportional_feeds_iff` — when all nodes have a share in the end
* `not_fed` — two nodes and two slots, one of which is never used
-/

namespace ThrottleKit.Concurrency

open Machine

variable {ι : Type} [LinearOrder ι]

/-- Lower median and demand-proportional allocation, with acknowledged handoff or without. -/
def demandSplit (handoff : Bool) : HeartbeatOptions := ⟨.median, .demandProportional, handoff⟩

/-- A heartbeat of a fleet of limit `L` and stable membership, with no more in flight than its
node's share: the node has a record, and no other record has expired. Under acknowledged handoff it
is in order. -/
structure Turn (opts : HeartbeatOptions) (L : ℤ) (records : Records ι) (a : Arrival ι) : Prop where
  limit : a.report.lLocal = L
  member : a.report.nodeId ∈ records.keys
  live : ∀ e ∈ records.entries, e.1 ≠ a.report.nodeId → a.now ≤ e.2.expiresAt
  fresh : isFresh opts (records.lookup a.report.nodeId) a.report = true
  nonneg : 0 ≤ a.report.inflight
  held : a.report.inflight ≤ heldShare records a

/-- The records of a fleet whose nodes heartbeat forever, each of them again and again. -/
structure KeepsBeating (opts : HeartbeatOptions) (L : ℤ) (records : ℕ → Records ι)
    (beat : ℕ → Arrival ι) : Prop where
  step : ∀ t, records (t + 1) = (applyHeartbeat opts (records t) (beat t).report (beat t).now).1
  turn : ∀ t, Turn opts L (records t) (beat t)
  again : ∀ i ∈ (records 0).keys, ∀ t, ∃ t' ≥ t, (beat t').report.nodeId = i

/-- No share is below zero, and under acknowledged handoff each is within its node's reserve. -/
def Sound (opts : HeartbeatOptions) (records : Records ι) : Prop :=
  ∀ i rec, records.lookup i = some rec →
    0 ≤ rec.share ∧ (opts.handoff = true → rec.share ≤ rec.unackedHigh)

/-- Every node has a share. -/
def Fed (records : Records ι) : Prop := ∀ i rec, records.lookup i = some rec → 1 ≤ rec.share

/-- The records of the others leave node `i` a slot of the limit. -/
def SlotLeft (opts : HeartbeatOptions) (L : ℤ) (records : Records ι) (i : ι) : Prop :=
  (records.erase i).sum (fun _ rec => occupied opts.handoff rec) < L

instance (opts : HeartbeatOptions) (L : ℤ) (s : Records ι) (i : ι) :
    Decidable (SlotLeft opts L s i) := inferInstanceAs (Decidable (_ < _))

/-- Node `i` has a share that fits into what the records of the others leave. -/
def Secured (opts : HeartbeatOptions) (L : ℤ) (records : Records ι) (i : ι) : Prop :=
  ∃ rec, records.lookup i = some rec ∧ 1 ≤ rec.share ∧
    rec.share + (records.erase i).sum (fun _ rec => occupied opts.handoff rec) ≤ L

/-! ### A heartbeat -/

section Step

variable {opts : HeartbeatOptions} {L : ℤ} {s : Records ι} {a : Arrival ι} {i : ι}

theorem Sound.le_occupied (h : Sound opts s) {rec : NodeRecord} (hrec : s.lookup i = some rec) :
    rec.share ≤ occupied opts.handoff rec := by
  rw [occupied]
  split
  · rename_i hon
    exact ((h i rec hrec).2 hon).trans (le_max_left _ _)
  · exact le_max_left _ _

/-- Demand-proportional allocation aims at one slot at least. -/
theorem one_le_targetFor {live : Records ι} {self : NodeRecord} (hself : live.lookup i = some self)
    (hnonneg : 0 ≤ self.inflight) (ids : List ι) :
    1 ≤ targetFor i ids L live .demandProportional := by
  rw [targetFor, hself]
  dsimp only
  split
  · omega
  · split
    · omega
    · exact le_max_left _ _

/-- What a heartbeat in order leaves of its node's record. -/
theorem Turn.afterGrant_spec (h : Turn opts L s a) {rec : NodeRecord}
    (hrec : s.lookup a.report.nodeId = some rec) (share : ℤ) :
    (afterGrant opts (s.lookup a.report.nodeId) a.report share).share = share ∧
      (opts.handoff = true →
        share ≤ (afterGrant opts (s.lookup a.report.nodeId) a.report share).unackedHigh) ∧
      occupied opts.handoff (afterGrant opts (s.lookup a.report.nodeId) a.report share)
        ≤ max share (max (occupied opts.handoff rec) a.report.inflight) := by
  have hinflight : (upserted opts (s.lookup a.report.nodeId) a.report).inflight
      = a.report.inflight := if_pos h.fresh
  have hhigh : (upserted opts (s.lookup a.report.nodeId) a.report).unackedHigh
      = rec.unackedHigh := by
    rw [hrec]
    rfl
  rw [afterGrant]
  cases hh : opts.handoff with
  | false =>
    refine ⟨rfl, fun hon => absurd hon Bool.false_ne_true, ?_⟩
    simp only [Bool.false_eq_true, if_false, occupied, hinflight]
    omega
  | true =>
    simp only [if_true, h.fresh, NodeRecord.granted, occupied, hinflight, hhigh]
    refine ⟨trivial, fun _ => ?_, ?_⟩ <;> split <;> omega

/-- **What a heartbeat grants**: what the others leave of a target of one at least. -/
theorem Turn.grant (h : Turn opts L s a) (halloc : opts.allocation = .demandProportional)
    (hlimited : Limited L s) (hsound : Sound opts s) :
    ∃ rec rec' target, s.lookup a.report.nodeId = some rec ∧ 1 ≤ target ∧
      (applyHeartbeat opts s a.report a.now).1 = s.set a.report.nodeId rec' ∧
      rec'.lLocal = L ∧ rec'.share = max 0 (min target
        (L - (s.erase a.report.nodeId).sum (fun _ rec => occupied opts.handoff rec))) ∧
      (opts.handoff = true → rec'.share ≤ rec'.unackedHigh) ∧
      occupied opts.handoff rec' ≤ max rec'.share (occupied opts.handoff rec) := by
  obtain ⟨rec, hrec⟩ := OrderedMap.exists_lookup_of_mem_keys h.member
  have hlive : (liveRecords opts s a.report a.now).lookup a.report.nodeId = some _ :=
    lookup_liveRecords_self
  have htarget := one_le_targetFor (L := L) hlive ((if_pos h.fresh).trans_ge h.nonneg)
    ((liveRecords opts s a.report a.now).keys.insertionSort (· ≤ ·))
  rw [← halloc] at htarget
  obtain ⟨heq, -⟩ := applyHeartbeat_eq_of_live h.live h.limit hlimited rfl
  obtain ⟨hshare, hhigh, hoccupied⟩ := h.afterGrant_spec hrec _
  have hheld := h.held
  rw [heldShare, hrec, Option.elim_some] at hheld
  refine ⟨rec, _, _, hrec, htarget, heq, (lLocal_afterGrant _ _ _ _).trans h.limit, hshare,
    fun hon => hshare.trans_le (hhigh hon), ?_⟩
  have hle := hsound.le_occupied hrec
  rw [hshare]
  omega

/-- Every record is that of the node that heartbeats, or stands as it was. -/
theorem lookup_set_cases {rec rec' : NodeRecord} {j : ι} (h : (s.set i rec').lookup j = some rec) :
    j = i ∧ rec = rec' ∨ j ≠ i ∧ s.lookup j = some rec := by
  rw [OrderedMap.lookup_set] at h
  split at h
  · rename_i heq
    exact .inl ⟨heq.symm, (Option.some.inj h).symm⟩
  · rename_i hne
    exact .inr ⟨Ne.symm hne, h⟩

/-- A heartbeat keeps the nodes, the limit and the soundness of the records. -/
theorem Turn.keeps (h : Turn opts L s a) (halloc : opts.allocation = .demandProportional)
    (hlimited : Limited L s) (hsound : Sound opts s) :
    (applyHeartbeat opts s a.report a.now).1.keys = s.keys ∧
      Limited L (applyHeartbeat opts s a.report a.now).1 ∧
      Sound opts (applyHeartbeat opts s a.report a.now).1 := by
  obtain ⟨rec, rec', target, hrec, -, heq, hlimit, hshare, hhigh, -⟩ :=
    h.grant halloc hlimited hsound
  rw [heq]
  refine ⟨OrderedMap.keys_set_of_mem h.member, fun j r hj => ?_, fun j r hj => ?_⟩
  · rcases lookup_set_cases hj with ⟨-, rfl⟩ | ⟨-, hj⟩
    · exact hlimit
    · exact hlimited j r hj
  · rcases lookup_set_cases hj with ⟨-, rfl⟩ | ⟨-, hj⟩
    · exact ⟨hshare ▸ le_max_left _ _, hhigh⟩
    · exact hsound j r hj

/-- **What a heartbeat does for its node**: it has a share after it just if there was a slot left,
and then the share is secured. -/
theorem Turn.secured (h : Turn opts L s a) (halloc : opts.allocation = .demandProportional)
    (hlimited : Limited L s) (hsound : Sound opts s) :
    (SlotLeft opts L s a.report.nodeId →
      Secured opts L (applyHeartbeat opts s a.report a.now).1 a.report.nodeId) ∧
    (Fed (applyHeartbeat opts s a.report a.now).1 → SlotLeft opts L s a.report.nodeId) := by
  obtain ⟨rec, rec', target, hrec, htarget, heq, -, hshare, -, -⟩ :=
    h.grant halloc hlimited hsound
  rw [heq]
  constructor
  · intro hslot
    rw [SlotLeft] at hslot
    refine ⟨rec', OrderedMap.lookup_set_self _ _ _, ?_, ?_⟩
    · omega
    · rw [OrderedMap.sum_erase_set]
      omega
  · intro hfed
    have hown := hfed a.report.nodeId rec' (OrderedMap.lookup_set_self _ _ _)
    rw [SlotLeft]
    omega

/-- **What a heartbeat does for the others**: it takes no secured share away, its own node's
neither. -/
theorem Turn.keeps_secured (h : Turn opts L s a) (halloc : opts.allocation = .demandProportional)
    (hlimited : Limited L s) (hsound : Sound opts s) (hi : Secured opts L s i) :
    Secured opts L (applyHeartbeat opts s a.report a.now).1 i := by
  obtain ⟨own, hown, hone, hfits⟩ := hi
  by_cases hself : i = a.report.nodeId
  · rw [hself] at hfits ⊢
    refine (h.secured halloc hlimited hsound).1 ?_
    rw [SlotLeft]
    omega
  · obtain ⟨rec, rec', target, hrec, -, heq, -, hshare, -, hoccupied⟩ :=
      h.grant halloc hlimited hsound
    rw [heq]
    have hsame : (s.set a.report.nodeId rec').lookup i = some own := by
      rw [OrderedMap.lookup_set_of_ne _ _ (Ne.symm hself)]
      exact hown
    refine ⟨own, hsame, hone, ?_⟩
    -- what all records occupy, by the record of `i` and by that of the node that heartbeats
    have hbefore := OrderedMap.sum_eq_add_sum_erase (fun _ r => occupied opts.handoff r) hown
    have hbefore' := OrderedMap.sum_eq_add_sum_erase (fun _ r => occupied opts.handoff r) hrec
    have hafter := OrderedMap.sum_eq_add_sum_erase (fun _ r => occupied opts.handoff r) hsame
    rw [OrderedMap.sum_set] at hafter
    have hcovers := hsound.le_occupied hown
    have hcovers' := hsound.le_occupied hrec
    have hnonneg := (hsound _ _ hrec).1
    omega

end Step

/-! ### Runs -/

section Run

variable {opts : HeartbeatOptions} {L : ℤ} {records : ℕ → Records ι} {beat : ℕ → Arrival ι}

/-- The nodes, the limit and the soundness of the records of every run. -/
theorem KeepsBeating.sound (h : KeepsBeating opts L records beat)
    (halloc : opts.allocation = .demandProportional) (hlimited : Limited L (records 0))
    (hsound : Sound opts (records 0)) (t : ℕ) :
    (records t).keys = (records 0).keys ∧ Limited L (records t) ∧ Sound opts (records t) := by
  induction t with
  | zero => exact ⟨rfl, hlimited, hsound⟩
  | succ t ih =>
    obtain ⟨hkeys, hlimited, hsound⟩ := ih
    obtain ⟨hkeys', hlimited', hsound'⟩ := (h.turn t).keeps halloc hlimited hsound
    rw [h.step t]
    exact ⟨hkeys'.trans hkeys, hlimited', hsound'⟩

/-- A secured share is secured for good. -/
theorem KeepsBeating.secured (h : KeepsBeating opts L records beat)
    (halloc : opts.allocation = .demandProportional) (hlimited : Limited L (records 0))
    (hsound : Sound opts (records 0)) {i : ι} {t : ℕ} (hi : Secured opts L (records t) i) :
    ∀ t' ≥ t, Secured opts L (records t') i := by
  intro t' ht'
  induction t', ht' using Nat.le_induction with
  | base => exact hi
  | succ t' _ ih =>
    obtain ⟨-, hlimited', hsound'⟩ := h.sound halloc hlimited hsound t'
    rw [h.step t']
    exact (h.turn t').keeps_secured halloc hlimited' hsound' ih

/-- **When all nodes have a share in the end**: just where each of them finds a slot at one of its
heartbeats. -/
theorem demandProportional_feeds_iff (halloc : opts.allocation = .demandProportional)
    (hlimited : Limited L (records 0)) (hsound : Sound opts (records 0))
    (h : KeepsBeating opts L records beat) :
    (∃ t, ∀ t' ≥ t, Fed (records t')) ↔
      ∀ i ∈ (records 0).keys, ∃ t, (beat t).report.nodeId = i ∧ SlotLeft opts L (records t) i := by
  constructor
  · rintro ⟨t, hfed⟩ i hi
    obtain ⟨t', ht', rfl⟩ := h.again i hi t
    obtain ⟨-, hlimited', hsound'⟩ := h.sound halloc hlimited hsound t'
    refine ⟨t', rfl, ((h.turn t').secured halloc hlimited' hsound').2 ?_⟩
    rw [← h.step t']
    exact hfed (t' + 1) (Nat.le_succ_of_le ht')
  · intro hslots
    have hlast : ∀ᶠ t in Filter.atTop, ∀ i ∈ {i | i ∈ (records 0).keys},
        Secured opts L (records t) i := by
      refine (Filter.eventually_all_finite (List.finite_toSet _)).mpr fun i hi => ?_
      obtain ⟨t, rfl, hslot⟩ := hslots i hi
      obtain ⟨-, hlimited', hsound'⟩ := h.sound halloc hlimited hsound t
      have hfirst := ((h.turn t).secured halloc hlimited' hsound').1 hslot
      rw [← h.step t] at hfirst
      exact Filter.eventually_atTop.mpr ⟨t + 1, h.secured halloc hlimited hsound hfirst⟩
    obtain ⟨t, ht⟩ := Filter.eventually_atTop.mp hlast
    refine ⟨t, fun t' ht' i rec hrec => ?_⟩
    have hi := OrderedMap.mem_keys_of_lookup hrec
    rw [(h.sound halloc hlimited hsound t').1] at hi
    obtain ⟨own, hown, hone, -⟩ := ht t' ht' i hi
    rw [hrec] at hown
    rwa [Option.some.inj hown]

end Run

/-! ### Two nodes that take turns -/

/-- Two nodes take turns, and nothing changes. -/
theorem keepsBeating_alternate {opts : HeartbeatOptions} {L : ℤ} {s : Records ι} {a b : Arrival ι}
    (hturn : ∀ x ∈ [a, b], Turn opts L s x)
    (hsame : ∀ x ∈ [a, b], (applyHeartbeat opts s x.report x.now).1.entries = s.entries)
    (hkeys : ∀ i ∈ s.keys, a.report.nodeId = i ∨ b.report.nodeId = i) :
    KeepsBeating opts L (fun _ => s) fun t => if t % 2 = 0 then a else b := by
  have hmem : ∀ t : ℕ, (if t % 2 = 0 then a else b) ∈ [a, b] := by
    intro t
    split <;> simp
  refine ⟨fun t => (OrderedMap.ext (hsame _ (hmem t))).symm, fun t => hturn _ (hmem t),
    fun i hi t => ?_⟩
  rcases hkeys i hi with ha | hb
  · refine ⟨2 * t, by omega, ?_⟩
    rw [if_pos (by omega), ha]
  · refine ⟨2 * t + 1, by omega, ?_⟩
    rw [if_neg (by omega), hb]

/-- A heartbeat of `i` that reports the limit `L`. -/
def reporting (L : ℤ) (i : Bool) (inflight : ℤ) : Arrival Bool :=
  ⟨⟨i, L, inflight, 1000, none, none⟩, 0⟩

/-- The node that comes first is granted the limit, and has one request in flight from then on. The
other node heartbeats before it shows and after. -/
def lateJoin (L : ℤ) : List (Arrival Bool) :=
  [reporting L true 0, reporting L false 0, reporting L true 1, reporting L false 0]

/-- The two nodes take turns from then on, and nothing changes. -/
theorem keepsBeating_lateJoin {L : ℤ} (hL : L = 2 ∨ L = 3) :
    KeepsBeating (demandSplit false) L
      (fun _ => heartbeats (demandSplit false) .empty (lateJoin L))
      fun t => if t % 2 = 0 then reporting L false 0 else reporting L true 1 := by
  rcases hL with rfl | rfl <;>
  · refine keepsBeating_alternate (fun x hx => ?_) (by decide +kernel) (by decide +kernel)
    rcases List.mem_pair.mp hx with rfl | rfl <;>
      exact ⟨rfl, by decide +kernel, by decide +kernel, by decide +kernel, by decide +kernel,
        by decide +kernel⟩

/-- The third slot is found. -/
theorem demandProportional_feeds_iff_three_slots :
    Fed (heartbeats (demandSplit false) .empty (lateJoin 3)) := by
  have hlookup : ∀ i rec, (heartbeats (demandSplit false) .empty (lateJoin 3)).lookup i = some rec →
      (i, rec) ∈ (heartbeats (demandSplit false) .empty (lateJoin 3)).entries :=
    fun i rec => OrderedMap.mem_entries_of_lookup
  obtain ⟨t, hfed⟩ := (demandProportional_feeds_iff (h := keepsBeating_lateJoin (.inr rfl)) rfl
    (fun i rec hrec => (show ∀ e ∈ (heartbeats (demandSplit false) .empty (lateJoin 3)).entries,
      e.2.lLocal = 3 by decide +kernel) _ (hlookup i rec hrec))
    (fun i rec hrec => (show ∀ e ∈ (heartbeats (demandSplit false) .empty (lateJoin 3)).entries,
      0 ≤ e.2.share ∧ ((demandSplit false).handoff = true → e.2.share ≤ e.2.unackedHigh) by
        decide +kernel) _ (hlookup i rec hrec))).mpr (by
      intro i _
      cases i
      · exact ⟨0, rfl, by decide +kernel⟩
      · exact ⟨1, rfl, by decide +kernel⟩)
  exact hfed t (Nat.le_refl t)

/-- **A slot that is never used**: of two slots the node that comes first keeps both, one of them
for a request, and the other node has none, whenever it heartbeats. -/
theorem not_fed :
    ¬ ∀ (L : ℤ) (log : List (Bool × Grant)) (records : ℕ → Records Bool)
      (beat : ℕ → Arrival Bool),
      (heartbeatMachine (demandSplit false)).Run (Reports (demandSplit false) L) .empty log
        (records 0) →
      KeepsBeating (demandSplit false) L records beat → ((records 0).size : ℤ) ≤ L →
      ∃ t : ℕ, ∀ t' ≥ t, Fed (records t') := by
  intro hall
  have hok : (heartbeatMachine (demandSplit false)).AllOk (Reports (demandSplit false) 2) .empty
      (lateJoin 2) := by
    decide +kernel
  obtain ⟨log, hrun, -⟩ := run_heartbeats hok
  obtain ⟨t, hfed⟩ := hall 2 log _ _ hrun (keepsBeating_lateJoin (.inl rfl)) (by decide +kernel)
  have hlookup : (heartbeats (demandSplit false) .empty (lateJoin 2)).lookup false
      = some ⟨2, 0, 1000, 0, 0, 0, 0⟩ := by
    decide +kernel
  exact absurd (hfed t (Nat.le_refl t) false _ hlookup) (by decide)

end ThrottleKit.Concurrency
