import ThrottleKit.Lib.Climb
import ThrottleKit.TwoTier.FederatedFairLimit

/-!
# Where a federated weighted fair escrow stalls

A check that its region's budget does not admit asks the pool for what it needs: what the region has
used, what the other tenants have left of their guaranteed shares, and the cost. The shares grow
with the budget, so it asks again as long as the grant grows. A grant that does not grow is taken
for the pool's cap. It is the cap if the region asked for more than it has, and it need not be:
shares are floored, so a budget may cover all that is asked for and still guarantee the asker less
than it has used already; and what a budget leaves is rounded, so it may leave less than the cost
that it covers. The region does not ask for a larger one.

The loop is a climb of the budget to its need, up to the room that the other regions leave. What the
check comes to is then read off the state before it: it stalls if and only if the needs do not rise,
within the rounds of the loop, to the room or to a budget that admits.

## Main definitions

* `raises`, `Unstalled` — what the pool would still grant, and a check that does not stall
* `Climbs`, `KeepsClimbing` — the condition
* `Attuned` — a region whose budget is what the pool has granted it

## Main results

* `climbed_ensureRegionBudget` — the loop is a climb
* `kept_call`, `attuned_of_run` — what a call and a run keep
* `unstalled_iff_keepsClimbing` — a check does not stall if and only if the condition holds of it
* `not_unstalled` — a region that stalls
-/

namespace ThrottleKit.FederatedFairEscrow

open Machine Parties Rounding

/-! ### What it is to stall -/

/-- The window, were its budget `b`. -/
def RegionWindow.withBudget (w : RegionWindow) (b : ℚ) : RegionWindow :=
  { w with regionBudget := b }

section Condition

variable [Rounding]

/-- Whether the pool, asked for one more unit than the region's budget, would grant more than the
budget. -/
def raises (o : PoolOptions) (pool : Pool) (region : String) (w : RegionWindow) (now : ℚ) : Bool :=
  (grant o pool region w.aggregate.totalWeight (w.regionBudget + 1) now).any fun r =>
    w.regionBudget < r.2

/-- Whether a decision denies. -/
def Event.denies : Event → Bool
  | .decided _ _ d => !d.allowed
  | _ => false

/-- **A check does not stall**: when it is denied, the region's budget has reached the whole budget
or the pool would not raise it, and the pool would not raise it if more would admit the check. -/
structure Unstalled (cfg : Config) (region : String) (pool : Pool) (s : Region) (c : Check) :
    Prop where
  capped : (checkSync cfg region pool s c).2.2.any Event.denies = true →
    ∀ w ∈ (checkSync cfg region pool s c).2.1, cfg.pool.budget ≤ w.regionBudget ∨
      raises cfg.pool (checkSync cfg region pool s c).1 region w c.now = false
  served : (checkSync cfg region pool s c).2.2.any Event.denies = true →
    ∀ w ∈ (checkSync cfg region pool s c).2.1,
      (∃ b, w.regionBudget < b ∧
        wouldAdmit (w.withBudget b) (arrive cfg region s c).2 w.aggregate = true) →
      raises cfg.pool (checkSync cfg region pool s c).1 region w c.now = false

/-! ### The condition -/

/-- What the region would ask for in total, were its budget `b`. -/
def needAt (o : PoolOptions) (w : RegionWindow) (k : Asker) (agg : Totals) (b : ℚ) : ℚ :=
  need o (w.withBudget b) k agg

/-- Whether the region would admit, were its budget `b`. -/
def admitsAt (w : RegionWindow) (k : Asker) (agg : Totals) (b : ℚ) : Bool :=
  wouldAdmit (w.withBudget b) k agg

/-- **The condition** on a check that has its entry. The needs, from that of the region's budget on
each the need of the one before, rise within the rounds of the loop to the room that the other
regions leave, or to a budget that admits. -/
def Climbs (o : PoolOptions) (p : PoolWindow) (region : String) (w : RegionWindow) (k : Asker) :
    Prop :=
  ∃ i ≤ maxLeaseIters,
    (roomFor o p region w.aggregate.totalWeight ≤ (needAt o w k w.aggregate)^[i] w.regionBudget ∨
      admitsAt w k w.aggregate ((needAt o w k w.aggregate)^[i] w.regionBudget) = true) ∧
    ∀ j < i, (needAt o w k w.aggregate)^[j] w.regionBudget
      < (needAt o w k w.aggregate)^[j + 1] w.regionBudget

/-- The condition on a check, unless it throws on its arguments. -/
def KeepsClimbing (cfg : Config) (region : String) (pool : Pool) (s : Region) (c : Check) : Prop :=
  validateInputs c = .ok () → Climbs cfg.pool (pool.rollWindow cfg.pool c.now) region
    (arrive cfg region s c).1 (arrive cfg region s c).2

end Condition

/-! ### The loop is a climb -/

section Loop

variable [Rounding] {o : PoolOptions} {region : String} {k : Asker} {agg : Totals}

/-- What a grant comes to. -/
theorem grant_of_pos (o : PoolOptions) (pool : Pool) (region : String) {weight : ℚ} (want now : ℚ)
    (hweight : 0 < weight) :
    ∃ p granted, grant o pool region weight want now = some (p, granted) := by
  rw [grant, if_pos hweight]
  generalize pool.rollWindow o now = p₀
  dsimp only
  split
  · exact ⟨_, _, rfl⟩
  · exact ⟨_, _, rfl⟩

omit [Rounding] in
/-- **What a grant does to a region's budget**, which is what the region was granted before: it
raises it to what was asked for, up to the room, and never lowers it. -/
theorem granted_eq {want held room granted : ℚ}
    (h : granted = if want ≤ held then held else min want (max held room)) :
    (want ≤ held ∨ room ≤ held → granted = held) ∧
      (held < want → held < room → granted = min want room) := by
  constructor
  · rintro (hmet | hfull)
    · rw [h, if_pos hmet]
    · rw [h, max_eq_left hfull]
      split
      · rfl
      · exact min_eq_right (not_le.mp ‹_›).le
  · intro hwant hroom
    rw [h, if_neg (not_le.mpr hwant), max_eq_right hroom.le]

/-- Where the loop leaves a region whose budget is what it was granted. -/
structure Climbed (o : PoolOptions) (region : String) (k : Asker) (agg : Totals) (iters : ℕ)
    (p : PoolWindow) (w : RegionWindow) (l : Leased) : Prop where
  noError : l.error = none
  window : l.window = w.withBudget (climb (needAt o w k agg) (admitsAt w k agg)
    (roomFor o p region agg.totalWeight) iters w.regionBudget)
  held : (l.pool.rollWindow o k.now).grantedTo region = l.window.regionBudget
  room : roomFor o (l.pool.rollWindow o k.now) region agg.totalWeight
    = roomFor o p region agg.totalWeight
  silent : l.log.any Event.denies = false

/-- **The loop is a climb** of the region's budget to its need, up to the room that the others
leave. -/
theorem climbed_ensureRegionBudget (region : String) (hweight : 0 < agg.totalWeight) :
    ∀ (iters : ℕ) (pool : Pool) (w : RegionWindow),
      (pool.rollWindow o k.now).grantedTo region = w.regionBudget →
      k.now < fl ((pool.rollWindow o k.now).windowStart + o.windowMs) →
      roomFor o (pool.rollWindow o k.now) region agg.totalWeight ≤ o.budget →
        Climbed o region k agg iters (pool.rollWindow o k.now) w
          (ensureRegionBudget o region k agg iters pool w) := by
  intro iters
  induction iters with
  | zero =>
    intro pool w hheld _ _
    exact ⟨rfl, rfl, hheld, rfl, rfl⟩
  | succ iters ih =>
    intro pool w hheld hstays hroom
    rw [ensureRegionBudget]
    by_cases hask : asksPool o w k agg = true
    · obtain ⟨p, granted, hgrant⟩ :=
        grant_of_pos o pool region (need o w k agg) k.now hweight
      have hg := granted_of_grant hgrant
      have hrolled := hg.rollWindow hstays pool.clock
      have hgranted := hg.amount
      rw [hheld] at hgranted
      obtain ⟨hstay, hraise⟩ := granted_eq hgranted
      simp only [asksPool, Bool.not_eq_true', Bool.or_eq_false_iff, decide_eq_false_iff_not,
        not_le] at hask
      rw [if_pos (by simp [asksPool, hask])]
      simp only [hgrant]
      by_cases hgo : w.regionBudget < need o w k agg ∧
          w.regionBudget < roomFor o (pool.rollWindow o k.now) region agg.totalWeight
      · -- the grant grows, and the loop goes on from it
        have hmore := hraise hgo.1 hgo.2
        have hlt : w.regionBudget < granted := hmore ▸ lt_min hgo.1 hgo.2
        obtain ⟨hnone, hwindow, hheld', hroom', hsilent⟩ :=
          ih { pool with window := some p } { w with regionBudget := granted }
            (by rw [hrolled, hg.own]) (by rw [hrolled, hg.windowStart]; exact hstays)
            (by rw [hrolled, hg.room]; exact hroom)
        rw [hrolled, hg.room] at hwindow hroom'
        rw [if_neg (not_le.mpr hlt)]
        refine ⟨hnone, ?_, hheld', hroom', hsilent⟩
        rw [climb_succ_of_go hgo.2 hask.2 hgo.1]
        rw [show min (needAt o w k agg w.regionBudget) _ = granted from hmore.symm]
        exact hwindow
      · -- the grant stays, and the loop ends
        have hend : need o w k agg ≤ w.regionBudget ∨
            roomFor o (pool.rollWindow o k.now) region agg.totalWeight ≤ w.regionBudget := by
          rwa [not_and_or, not_lt, not_lt] at hgo
        obtain rfl := hstay hend
        rw [if_pos le_rfl]
        refine ⟨rfl, ?_, by rw [hrolled, hg.own], by rw [hrolled, hg.room], rfl⟩
        rcases hend with hmet | hfull
        · rw [climb_succ_of_met hmet]
          rfl
        · rw [climb_of_stop (.inl hfull)]
          rfl
    · rw [if_neg hask]
      refine ⟨rfl, ?_, hheld, rfl, rfl⟩
      simp only [asksPool, Bool.not_eq_true', Bool.not_eq_false, Bool.or_eq_true,
        decide_eq_true_eq] at hask
      rw [climb_of_stop (hask.imp_left hroom.trans)]
      rfl

end Loop

/-! ### What pool and region agree on -/

/-- What the pool has granted a region in the window starting at `t`. -/
def Pool.heldIn (pool : Pool) (region : String) (t : ℚ) : ℚ :=
  pool.window.elim 0 fun p => if p.windowStart = t then p.grantedTo region else 0

/-- The budget of a region in the window starting at `t`. -/
def budgetIn (s : Region) (t : ℚ) : ℚ :=
  s.elim 0 fun w => if w.windowStart = t then w.regionBudget else 0

/-- The window starting at `t` is not one that the pool has left. -/
def Pool.NotPast (pool : Pool) (t : ℚ) : Prop := ∀ p ∈ pool.window, p.windowStart ≤ t

/-- The windows that the later pool has not left, the earlier had not left either, and a region is
granted the same in them. -/
def SameHeld (region : String) (pool pool' : Pool) : Prop :=
  ∀ t, pool'.NotPast t → pool.NotPast t ∧ pool'.heldIn region t = pool.heldIn region t

section Agree

variable [Rounding] {o : PoolOptions} {pool pool' pool'' : Pool} {region r : String} {now t : ℚ}

omit [Rounding] in
theorem SameHeld.refl (region : String) (pool : Pool) : SameHeld region pool pool :=
  fun _ h => ⟨h, rfl⟩

omit [Rounding] in
theorem SameHeld.trans (h : SameHeld region pool pool') (h' : SameHeld region pool' pool'') :
    SameHeld region pool pool'' := by
  intro t ht
  obtain ⟨hmid, hsame'⟩ := h' t ht
  obtain ⟨hfirst, hsame⟩ := h t hmid
  exact ⟨hfirst, hsame'.trans hsame⟩

/-- What was granted in the window that the pool rolls to. -/
theorem grantedTo_rollWindow (hon : pool.RollsOn o now) (region : String) :
    (pool.rollWindow o now).grantedTo region
      = pool.heldIn region (pool.rollWindow o now).windowStart := by
  rcases Pool.rollWindow_cases hon with hstay | ⟨hnew, hlater⟩
  · rw [Pool.heldIn, hstay, Option.elim_some, if_pos rfl]
  · rw [hnew, Pool.heldIn]
    cases hwindow : pool.window with
    | none => rfl
    | some p => exact (if_neg (hlater p hwindow).ne).symm

theorem sameHeld_roll (hon : pool.RollsOn o now) (region : String) (clock : ℚ) :
    SameHeld region pool ⟨some (pool.rollWindow o now), clock⟩ := by
  intro t ht
  have hle : (pool.rollWindow o now).windowStart ≤ t := ht _ rfl
  rcases Pool.rollWindow_cases hon with hstay | ⟨hnew, hlater⟩
  · refine ⟨fun p hp => ?_, ?_⟩
    · obtain rfl : pool.rollWindow o now = p := Option.some.inj (hstay.symm.trans hp)
      exact hle
    · rw [Pool.heldIn, Pool.heldIn, hstay]
  · rw [hnew] at hle ⊢
    refine ⟨fun p hp => ((hlater p hp).trans_le hle).le, ?_⟩
    rw [Pool.heldIn, Pool.heldIn]
    cases hwindow : pool.window with
    | none => exact ite_self _
    | some p =>
      have hne : p.windowStart ≠ t := ((hlater p hwindow).trans_le hle).ne
      simp [PoolWindow.grantedTo, hne]

omit [Rounding] in
/-- A window that starts where the pool's does and grants a region the same. -/
theorem sameHeld_of_grantedTo {p p' : PoolWindow} {clock clock' : ℚ}
    (hstart : p'.windowStart = p.windowStart) (hgranted : p'.grantedTo r = p.grantedTo r) :
    SameHeld r ⟨some p, clock⟩ ⟨some p', clock'⟩ := by
  intro t ht
  refine ⟨?_, ?_⟩
  · rintro _ ⟨⟩
    exact hstart ▸ ht p' rfl
  · simp only [Pool.heldIn, Option.elim_some, hstart, hgranted]

/-- **A grant to one region** leaves what the others hold. -/
theorem sameHeld_grant {weight want granted clock : ℚ} {p : PoolWindow}
    (hon : pool.RollsOn o now) (hr : r ≠ region)
    (h : grant o pool region weight want now = some (p, granted)) :
    SameHeld r pool ⟨some p, clock⟩ := by
  have hg := granted_of_grant h
  exact (sameHeld_roll hon r clock).trans
    (sameHeld_of_grantedTo hg.windowStart (hg.others r hr))

theorem sameHeld_release (hon : pool.RollsOn o now) (hr : r ≠ region) :
    SameHeld r pool (pool.release o region now) := by
  refine (sameHeld_roll hon r now).trans (sameHeld_of_grantedTo rfl ?_)
  simp only [PoolWindow.grantedTo, OrderedMap.lookup_erase_of_ne _ (Ne.symm hr)]

/-- What the pool grants is not negative. -/
def Pool.Sound (pool : Pool) : Prop := ∀ p ∈ pool.window, ∀ r, 0 ≤ p.grantedTo r

/-- The tenants of a region have weight, and in the windows that neither it nor the pool has left,
its budget is what it was granted. -/
structure Attuned (region : String) (pool : Pool) (s : Region) : Prop where
  weighed : ∀ w ∈ s, ∀ id t, w.tenants.lookup id = some t → 0 < t.weight
  agree : ∀ t, pool.NotPast t → (∀ w ∈ s, w.windowStart ≤ t) →
    pool.heldIn region t = budgetIn s t

theorem Pool.Sound.roll (h : pool.Sound) (hon : pool.RollsOn o now) (r : String) :
    0 ≤ (pool.rollWindow o now).grantedTo r := by
  rcases Pool.rollWindow_cases hon with hstay | ⟨hnew, -⟩
  · exact h _ hstay r
  · rw [hnew]
    exact le_rfl

theorem Pool.Sound.grant {weight want granted : ℚ} {p : PoolWindow} (h : pool.Sound)
    (hon : pool.RollsOn o now)
    (hgrant : FederatedFairEscrow.grant o pool region weight want now = some (p, granted)) :
    Pool.Sound { pool with window := some p } := by
  have hg := granted_of_grant hgrant
  rintro _ ⟨⟩ r
  by_cases hr : r = region
  · subst hr
    rw [hg.own]
    exact (h.roll hon r).trans hg.raised
  · rw [hg.others r hr]
    exact h.roll hon r

theorem Pool.Sound.release (h : pool.Sound) (hon : pool.RollsOn o now) :
    (pool.release o region now).Sound := by
  rintro _ ⟨⟩ r
  by_cases hr : r = region
  · simp [PoolWindow.grantedTo, hr]
  · simp only [PoolWindow.grantedTo, OrderedMap.lookup_erase_of_ne _ (Ne.symm hr)]
    exact h.roll hon r

/-- What the others leave is no more than the budget. -/
theorem Pool.Sound.room_le (hlimit : Unrounded o.budget) (h : pool.Sound) (hon : pool.RollsOn o now)
    (weight : ℚ) : roomFor o (pool.rollWindow o now) region weight ≤ o.budget := by
  refine (mono (sub_le_self _ ?_)).trans_eq hlimit
  refine sumOf_nonneg fun x hx => ?_
  obtain ⟨e, he, rfl⟩ := List.mem_map.mp hx
  obtain ⟨hmem, hne⟩ := List.mem_filter.mp he
  have hlook := OrderedMap.lookup_of_mem_entries hmem
  rw [OrderedMap.lookup_set_of_ne _ _ (Ne.symm (of_decide_eq_true hne))] at hlook
  have hgranted := h.roll hon e.1
  rw [PoolWindow.grantedTo, hlook, Option.elim_some] at hgranted
  exact le_max_of_le_left hgranted

/-- **Pool and region, asked at one instant,** agree on what the region was granted. -/
theorem Attuned.rolled {s : Region} (h : Attuned region pool s) (habreast : Abreast o pool s now) :
    (pool.rollWindow o now).grantedTo region = (rollRegion o s now).regionBudget := by
  rw [grantedTo_rollWindow habreast.pool_rollsOn, habreast.rollWindow_windowStart,
    h.agree _ (fun p hp => (habreast.pool p hp).le) fun w hw => (habreast.region w hw).le]
  have hstart := habreast.rollRegion_windowStart
  rcases rollRegion_cases habreast.region_rollsOn with hstay | ⟨hnew, hlater⟩
  · rw [budgetIn]
    conv_lhs => rw [hstay]
    rw [Option.elim_some, if_pos hstart]
  · rw [hnew, budgetIn]
    cases s with
    | none => rfl
    | some w => exact if_neg (hlater w rfl).ne

omit [Rounding] in
/-- What leaves a region's grant leaves the region attuned. -/
theorem Attuned.of_sameHeld {s : Region} (h : Attuned region pool s)
    (hsame : SameHeld region pool pool') : Attuned region pool' s := by
  refine ⟨h.weighed, fun t ht hlate => ?_⟩
  obtain ⟨hold, heq⟩ := hsame t ht
  exact heq.trans (h.agree t hold hlate)

/-- A region in the window of the present instant, with the budget that it was granted there. -/
theorem attuned_of_rolled {s : Region} {w : RegionWindow} (habreast : Abreast o pool s now)
    (hstart : w.windowStart = startOf o.windowMs now)
    (hweights : ∀ id t, w.tenants.lookup id = some t → 0 < t.weight)
    (hheld : (pool.rollWindow o now).grantedTo region = w.regionBudget) :
    Attuned region pool (some w) := by
  refine ⟨?_, fun t ht hlate => ?_⟩
  · rintro _ ⟨⟩
    exact hweights
  · have hle : startOf o.windowMs now ≤ t := hstart ▸ hlate w rfl
    rw [grantedTo_rollWindow habreast.pool_rollsOn, habreast.rollWindow_windowStart] at hheld
    rw [budgetIn, Option.elim_some, hstart]
    split
    · rename_i heq
      rw [← hheld, heq]
    · rename_i hne
      rw [Pool.heldIn]
      cases hwindow : pool.window with
      | none => rfl
      | some p =>
        have hpast := (habreast.pool p hwindow).le
        exact if_neg ((hpast.trans_lt (lt_of_le_of_ne hle hne)).ne)

end Agree

/-! ### A check -/

section Check

variable [Rounding] {cfg : Config} {region : String} {pool : Pool} {s : Region} {c : Check}

/-- A check leaves no tenant without weight. -/
theorem weighed_arrive (hon : Region.RollsOn cfg.pool s c.now)
    (hs : ∀ w ∈ s, ∀ id t, w.tenants.lookup id = some t → 0 < t.weight)
    (hweight : 0 < c.weight) : ∀ id t,
    (arrive cfg region s c).1.tenants.lookup id = some t → 0 < t.weight := by
  have hrolled : ∀ id t, (rollRegion cfg.pool s c.now).tenants.lookup id = some t →
      0 < t.weight := by
    rcases rollRegion_cases hon with hstay | ⟨hnew, -⟩
    · exact hs _ hstay
    · rw [hnew]
      intro id t h
      cases h
  intro id t h
  unfold arrive at h
  generalize rollRegion cfg.pool s c.now = w at hrolled h
  dsimp only at h
  split at h
  · dsimp only at h
    rw [OrderedMap.lookup_set] at h
    split at h
    · obtain rfl := Option.some.inj h
      exact hweight
    · exact hrolled id t h
  · dsimp only [bootstrapTenant] at h
    rw [OrderedMap.lookup_set] at h
    split at h
    · obtain rfl := Option.some.inj h
      exact hweight
    · refine hrolled id t ?_
      unfold evict at h
      split at h
      · split at h
        · rw [OrderedMap.lookup_erase] at h
          split at h
          · cases h
          · exact h
        · exact h
      · exact h

/-- A tenant whose weight is a number of the arithmetic gives its region weight. -/
theorem totalWeight_pos {w : RegionWindow} {id : String} {t : TenantEntry}
    (hlook : w.tenants.lookup id = some t)
    (hweights : ∀ id t, w.tenants.lookup id = some t → 0 < t.weight)
    (hweight : Unrounded t.weight) : 0 < w.aggregate.totalWeight := by
  refine (hweights id t hlook).trans_le (le_sumFrom_of_mem (fun x hx => ?_) hweight le_rfl
    (List.mem_map.mpr ⟨(id, t), OrderedMap.mem_entries_of_lookup hlook, rfl⟩))
  obtain ⟨e, he, rfl⟩ := List.mem_map.mp hx
  exact (hweights e.1 e.2 (OrderedMap.lookup_of_mem_entries he)).le

theorem arrive_weight (cfg : Config) (region : String) (s : Region) (c : Check) :
    (arrive cfg region s c).2.entry.weight = c.weight := by
  unfold arrive
  generalize rollRegion cfg.pool s c.now = w
  dsimp only
  split <;> rfl

/-- The loop of a check. -/
def leasedBy (cfg : Config) (region : String) (pool : Pool) (s : Region) (c : Check) : Leased :=
  ensureRegionBudget cfg.pool region (arrive cfg region s c).2 (arrive cfg region s c).1.aggregate
    maxLeaseIters { pool with clock := c.now } (arrive cfg region s c).1

/-- The decision of a check. -/
def decisionOf (cfg : Config) (region : String) (pool : Pool) (s : Region) (c : Check) : Decision :=
  verdict cfg.pool (leasedBy cfg region pool s c).window (arrive cfg region s c).2
    (arrive cfg region s c).1.aggregate

theorem checkSync_of_ok (hvalid : validateInputs c = .ok ())
    (hno : (leasedBy cfg region pool s c).error = none) :
    checkSync cfg region pool s c =
      ((leasedBy cfg region pool s c).pool,
        some (if (decisionOf cfg region pool s c).allowed
          then charge (leasedBy cfg region pool s c).window (arrive cfg region s c).2
          else (leasedBy cfg region pool s c).window),
        (leasedBy cfg region pool s c).log ++
          [.decided (leasedBy cfg region pool s c).window.windowStart c.cost
            (decisionOf cfg region pool s c)]) := by
  rw [leasedBy] at hno
  rw [checkSync, hvalid]
  simp only [hno]
  rfl

/-- What the arriving check is to the loop: the pool's grant is the region's budget, the others
leave no more than the budget, and the tenants have weight. -/
structure Arrived (cfg : Config) (region : String) (pool : Pool) (s : Region) (c : Check) :
    Prop where
  windowStart : (arrive cfg region s c).1.windowStart = startOf cfg.pool.windowMs c.now
  weighed : ∀ id t, (arrive cfg region s c).1.tenants.lookup id = some t → 0 < t.weight
  weight_pos : 0 < (arrive cfg region s c).1.aggregate.totalWeight
  room : roomFor cfg.pool (pool.rollWindow cfg.pool c.now) region
    (arrive cfg region s c).1.aggregate.totalWeight ≤ cfg.pool.budget
  climbed : Climbed cfg.pool region (arrive cfg region s c).2
    (arrive cfg region s c).1.aggregate maxLeaseIters (pool.rollWindow cfg.pool c.now)
    (arrive cfg region s c).1 (leasedBy cfg region pool s c)

theorem Attuned.arrived (hlimit : Unrounded cfg.pool.budget) (hpool : pool.Sound)
    (h : Attuned region pool s) (habreast : Abreast cfg.pool pool s c.now)
    (hdouble : Unrounded c.weight) (hvalid : validateInputs c = .ok ()) :
    Arrived cfg region pool s c := by
  obtain ⟨-, hweight⟩ := pos_of_validateInputs hvalid
  obtain ⟨hstart, hbudget, hentry, -, hnow⟩ := arrive_spec cfg region s c
  have hweighed : ∀ id t, (arrive cfg region s c).1.tenants.lookup id = some t → 0 < t.weight :=
    weighed_arrive habreast.region_rollsOn h.weighed hweight
  have htotal := totalWeight_pos hentry hweighed (by rw [arrive_weight]; exact hdouble)
  have hroom : roomFor cfg.pool (pool.rollWindow cfg.pool c.now) region
      (arrive cfg region s c).1.aggregate.totalWeight ≤ cfg.pool.budget :=
    hpool.room_le hlimit habreast.pool_rollsOn _
  have hclimbed := climbed_ensureRegionBudget (o := cfg.pool) (k := (arrive cfg region s c).2)
    region htotal maxLeaseIters { pool with clock := c.now } (arrive cfg region s c).1
  rw [hnow] at hclimbed
  refine ⟨?_, hweighed, htotal, hroom, hclimbed ?_ habreast.stays hroom⟩
  · rw [hstart, habreast.rollRegion_windowStart]
  · show (pool.rollWindow cfg.pool c.now).grantedTo region = _
    rw [hbudget, h.rolled habreast]

/-- Whether one more unit would be granted: where the room is not used up. -/
theorem raises_eq {o : PoolOptions} {w : RegionWindow} {now : ℚ}
    (hweight : 0 < w.aggregate.totalWeight)
    (hheld : (pool.rollWindow o now).grantedTo region = w.regionBudget) :
    raises o pool region w now = decide (w.regionBudget
      < roomFor o (pool.rollWindow o now) region w.aggregate.totalWeight) := by
  obtain ⟨p, granted, hgrant⟩ := grant_of_pos o pool region (w.regionBudget + 1) now hweight
  have hgranted := (granted_of_grant hgrant).amount
  rw [hheld] at hgranted
  obtain ⟨hstay, hraise⟩ := granted_eq hgranted
  rw [raises, hgrant, Option.any_some]
  by_cases hroom : w.regionBudget < roomFor o (pool.rollWindow o now) region w.aggregate.totalWeight
  · rw [decide_eq_true hroom, decide_eq_true_eq, hraise (lt_add_one _) hroom]
    exact lt_min (lt_add_one _) hroom
  · rw [decide_eq_false hroom, hstay (.inr (not_lt.mp hroom)), decide_eq_false (lt_irrefl _)]

/-- The budget at which a check is decided. -/
def finalBudget (cfg : Config) (region : String) (pool : Pool) (s : Region) (c : Check) : ℚ :=
  (leasedBy cfg region pool s c).window.regionBudget

theorem Arrived.allowed (h : Arrived cfg region pool s c) :
    (decisionOf cfg region pool s c).allowed
      = admitsAt (arrive cfg region s c).1 (arrive cfg region s c).2
        (arrive cfg region s c).1.aggregate (finalBudget cfg region pool s c) := by
  rw [decisionOf, ← wouldAdmit_eq_allowed, admitsAt, finalBudget, h.climbed.window]
  rfl

theorem Arrived.denies (h : Arrived cfg region pool s c) (hvalid : validateInputs c = .ok ()) :
    (checkSync cfg region pool s c).2.2.any Event.denies
      = !(decisionOf cfg region pool s c).allowed := by
  rw [checkSync_of_ok hvalid h.climbed.noError]
  simp [h.climbed.silent, Event.denies]

/-- The room that the others leave to the region of a check. -/
def roomOf (cfg : Config) (region : String) (pool : Pool) (s : Region) (c : Check) : ℚ :=
  roomFor cfg.pool (pool.rollWindow cfg.pool c.now) region
    (arrive cfg region s c).1.aggregate.totalWeight

/-- A check that is denied leaves its budget, and the pool has more for it where there is room. -/
theorem Arrived.denied (h : Arrived cfg region pool s c) (hvalid : validateInputs c = .ok ())
    (hden : (decisionOf cfg region pool s c).allowed = false) :
    ∃ w, (checkSync cfg region pool s c).2.1 = some w ∧
      w.regionBudget = finalBudget cfg region pool s c ∧
      raises cfg.pool (checkSync cfg region pool s c).1 region w c.now
        = decide (finalBudget cfg region pool s c < roomOf cfg region pool s c) := by
  obtain ⟨-, -, -, -, hnow⟩ := arrive_spec cfg region s c
  have hagg : (leasedBy cfg region pool s c).window.aggregate
      = (arrive cfg region s c).1.aggregate := by
    rw [h.climbed.window]
    rfl
  have hheld := h.climbed.held
  have hroom := h.climbed.room
  rw [hnow] at hheld hroom
  refine ⟨(leasedBy cfg region pool s c).window, ?_, rfl, ?_⟩
  · rw [checkSync_of_ok hvalid h.climbed.noError]
    simp [hden]
  · rw [checkSync_of_ok hvalid h.climbed.noError,
      raises_eq (hagg ▸ h.weight_pos) hheld, hagg, hroom]
    rfl

/-- **A check stalls** exactly where its loop ends below the room without admitting. -/
theorem Arrived.unstalled_iff (h : Arrived cfg region pool s c)
    (hvalid : validateInputs c = .ok ()) : Unstalled cfg region pool s c ↔
      ¬(finalBudget cfg region pool s c < roomOf cfg region pool s c ∧
        (decisionOf cfg region pool s c).allowed = false) := by
  have hbudget : roomOf cfg region pool s c ≤ cfg.pool.budget := h.room
  constructor
  · rintro hun ⟨hroom, hden⟩
    obtain ⟨w, hw, hfinal, hraises⟩ := h.denied hvalid hden
    have hcapped := hun.capped (by rw [h.denies hvalid, hden]; rfl) w hw
    rw [hraises, decide_eq_false_iff_not, hfinal] at hcapped
    rcases hcapped with hle | hno
    · linarith
    · exact hno hroom
  · intro hgo
    have hnever (hany : (checkSync cfg region pool s c).2.2.any Event.denies = true) :
        ∀ w ∈ (checkSync cfg region pool s c).2.1,
          raises cfg.pool (checkSync cfg region pool s c).1 region w c.now = false := by
      intro w' hw'
      rw [h.denies hvalid, Bool.not_eq_true'] at hany
      obtain ⟨w, hw, -, hraises⟩ := h.denied hvalid hany
      obtain rfl : w = w' := Option.some.inj (hw.symm.trans hw')
      rw [hraises, decide_eq_false_iff_not]
      exact fun hroom => hgo ⟨hroom, hany⟩
    exact ⟨fun hany w hw => .inr (hnever hany w hw), fun hany w hw _ => hnever hany w hw⟩

/-- **Where the loop of a check ends**, by what is ahead of the region's budget. -/
theorem Arrived.stuck_iff (h : Arrived cfg region pool s c) :
    (finalBudget cfg region pool s c < roomOf cfg region pool s c ∧
      (decisionOf cfg region pool s c).allowed = false) ↔
        ¬Climbs cfg.pool (pool.rollWindow cfg.pool c.now) region (arrive cfg region s c).1
          (arrive cfg region s c).2 := by
  have hfinal : finalBudget cfg region pool s c
      = climb (needAt cfg.pool (arrive cfg region s c).1 (arrive cfg region s c).2
          (arrive cfg region s c).1.aggregate)
        (admitsAt (arrive cfg region s c).1 (arrive cfg region s c).2
          (arrive cfg region s c).1.aggregate)
        (roomOf cfg region pool s c) maxLeaseIters (arrive cfg region s c).1.regionBudget := by
    rw [finalBudget, h.climbed.window]
    rfl
  rw [h.allowed, hfinal, Climbs, ← roomOf, ← climb_reaches_iff, not_or, not_le,
    Bool.not_eq_true]

/-- The loop of a check keeps the pool sound, and what the other regions hold. -/
theorem leasedBy_pool (region : String) (hpool : pool.Sound)
    (habreast : Abreast cfg.pool pool s c.now) :
    (leasedBy cfg region pool s c).pool.Sound ∧
      Abreast cfg.pool (leasedBy cfg region pool s c).pool s c.now ∧
        ∀ r, r ≠ region → SameHeld r pool (leasedBy cfg region pool s c).pool := by
  obtain ⟨-, -, -, -, hnow⟩ := arrive_spec cfg region s c
  refine ensureRegionBudget_pool (I := fun q => q.Sound ∧ Abreast cfg.pool q s c.now ∧
    ∀ r, r ≠ region → SameHeld r pool q) ?_ maxLeaseIters _ _
    ⟨hpool, ⟨habreast.inside, habreast.pool, habreast.region⟩, fun r _ => .refl r pool⟩
  rintro q want p granted ⟨hsound, hq, hsame⟩ hgrant
  rw [hnow] at hgrant
  exact ⟨hsound.grant hq.pool_rollsOn hgrant, hq.granted (granted_of_grant hgrant) q.clock,
    fun r hr => (hsame r hr).trans (sameHeld_grant hq.pool_rollsOn hr hgrant)⟩

/-- What a check leaves the region with. -/
theorem Arrived.attuned (h : Arrived cfg region pool s c) (hpool : pool.Sound)
    (habreast : Abreast cfg.pool pool s c.now) (hvalid : validateInputs c = .ok ()) :
    Attuned region (checkSync cfg region pool s c).1 (checkSync cfg region pool s c).2.1 := by
  obtain ⟨-, -, hentry, -, hnow⟩ := arrive_spec cfg region s c
  obtain ⟨-, hleased, -⟩ := leasedBy_pool region hpool habreast
  have hheld := h.climbed.held
  rw [hnow] at hheld
  have hstart : (leasedBy cfg region pool s c).window.windowStart
      = startOf cfg.pool.windowMs c.now := by
    rw [h.climbed.window]
    exact h.windowStart
  have htenants : (leasedBy cfg region pool s c).window.tenants
      = (arrive cfg region s c).1.tenants := by
    rw [h.climbed.window]
    rfl
  rw [checkSync_of_ok hvalid h.climbed.noError]
  dsimp only
  split
  · refine attuned_of_rolled hleased hstart (fun id t ht => ?_) hheld
    simp only [charge, htenants, OrderedMap.lookup_set] at ht
    split at ht
    · obtain rfl := Option.some.inj ht
      exact h.weighed _ (arrive cfg region s c).2.entry hentry
    · exact h.weighed id t ht
  · exact attuned_of_rolled hleased hstart (fun id t ht => h.weighed id t (htenants ▸ ht)) hheld

end Check

/-! ### Every run -/

/-- The reading of the clock that a call takes. -/
def Call.now? : Call → Option ℚ
  | .check c => some c.now
  | .resetTenant _ => none
  | .reset now => some now

/-- The clock does not go back. -/
def InOrder (s : Parties String Pool Region) (a : String × Call) : Prop :=
  ∀ t ∈ a.2.now?, s.shared.clock ≤ t

instance (s : Parties String Pool Region) (a : String × Call) : Decidable (InOrder s a) :=
  inferInstanceAs (Decidable (∀ t ∈ a.2.now?, _ ≤ t))

/-- The weight that a call goes by, if any. -/
def Call.weight? : Call → Option ℚ
  | .check c => some c.weight
  | _ => none

section Service

variable [Rounding]

/-- A call finds the pool and its region in the window of its reading, and its weight is a number of
the arithmetic. -/
def Met (cfg : Config) (s : Parties String Pool Region) (a : String × Call) : Prop :=
  (∀ t ∈ a.2.now?, Abreast cfg.pool s.shared (s.party a.1) t) ∧
    ∀ weight ∈ a.2.weight?, Unrounded weight

instance (o : PoolOptions) (pool : Pool) : (s : Region) → (now : ℚ) →
    Decidable (Abreast o pool s now)
  | none, now =>
    decidable_of_iff (Inside o.windowMs now ∧ ∀ p ∈ pool.window, Meets o.windowMs p.windowStart now)
      ⟨fun ⟨h, h'⟩ => ⟨h, h', fun _ hw => by cases hw⟩, fun ⟨h, h', _⟩ => ⟨h, h'⟩⟩
  | some w, now =>
    decidable_of_iff (Inside o.windowMs now ∧ (∀ p ∈ pool.window,
      Meets o.windowMs p.windowStart now) ∧ Meets o.windowMs w.windowStart now)
      ⟨fun ⟨h, h', h''⟩ => ⟨h, h', by rintro _ ⟨⟩; exact h''⟩,
        fun ⟨h, h', h''⟩ => ⟨h, h', h'' w rfl⟩⟩

instance Met.decidable (cfg : Config) (s : Parties String Pool Region) (a : String × Call) :
    Decidable (Met cfg s a) :=
  inferInstanceAs (Decidable (_ ∧ _))

omit [Rounding] in
instance (cfg : Config) (s : Parties String Pool Region) (a : String × Call) :
    Decidable (@Met doubles cfg s a) :=
  @Met.decidable doubles cfg s a

variable {cfg : Config} {region : String} {pool : Pool} {s : Region} {a : Call}

/-- What a call keeps: a sound pool, a region attuned to it, and what the other regions hold. -/
structure Kept (region : String) (pool pool' : Pool) (s' : Region) : Prop where
  sound : pool'.Sound
  attuned : Attuned region pool' s'
  others : ∀ r, r ≠ region → SameHeld r pool pool'

theorem kept_checkSync {c : Check} (hlimit : Unrounded cfg.pool.budget) (hpool : pool.Sound)
    (h : Attuned region pool s) (habreast : Abreast cfg.pool pool s c.now)
    (hdouble : Unrounded c.weight) :
    Kept region pool (checkSync cfg region pool s c).1 (checkSync cfg region pool s c).2.1 := by
  cases hvalid : validateInputs c with
  | error e =>
    rw [checkSync, hvalid]
    exact ⟨hpool, h, fun r _ => .refl r pool⟩
  | ok =>
    have harrived := h.arrived hlimit hpool habreast hdouble hvalid
    have hattuned := harrived.attuned hpool habreast hvalid
    obtain ⟨hsound, -, hsame⟩ := leasedBy_pool region hpool habreast
    rw [checkSync_of_ok hvalid harrived.climbed.noError] at hattuned ⊢
    exact ⟨hsound, hattuned, hsame⟩

omit [Rounding] in
theorem attuned_none (hheld : ∀ t, pool.NotPast t → pool.heldIn region t = 0) :
    Attuned region pool none where
  weighed _ hw := by cases hw
  agree t ht _ := hheld t ht

theorem kept_reset {now : ℚ} (hpool : pool.Sound) (h : Attuned region pool s)
    (habreast : Abreast cfg.pool pool s now) :
    Kept region pool (reset cfg.pool region pool s now).1
      (reset cfg.pool region pool s now).2 := by
  cases s with
  | none => exact ⟨hpool, h.of_sameHeld (.refl region pool), fun r _ => .refl r pool⟩
  | some w =>
    refine ⟨hpool.release habreast.pool_rollsOn, attuned_none fun t _ => ?_,
      fun r hr => sameHeld_release habreast.pool_rollsOn hr⟩
    show (if _ then PoolWindow.grantedTo _ region else 0) = 0
    simp [PoolWindow.grantedTo]

omit [Rounding] in
theorem kept_resetTenant (hpool : pool.Sound) (h : Attuned region pool s) (tenant : String) :
    Kept region pool pool (resetTenant s tenant) := by
  refine ⟨hpool, ?_, fun r _ => .refl r pool⟩
  cases s with
  | none => exact h
  | some w =>
    refine ⟨?_, fun t ht hlate => ?_⟩
    · rintro _ ⟨⟩ id t ht
      rw [OrderedMap.lookup_erase] at ht
      split at ht
      · cases ht
      · exact h.weighed w rfl id t ht
    · refine h.agree t ht ?_
      rintro _ ⟨⟩
      exact hlate { w with tenants := w.tenants.erase tenant } rfl

/-- **One call.** -/
theorem kept_call (hlimit : Unrounded cfg.pool.budget) (hpool : pool.Sound)
    (h : Attuned region pool s) (habreast : ∀ t ∈ a.now?, Abreast cfg.pool pool s t)
    (hdouble : ∀ weight ∈ a.weight?, Unrounded weight) :
    Kept region pool (call cfg region pool s a).1 (call cfg region pool s a).2.1 := by
  cases a with
  | check c => exact kept_checkSync hlimit hpool h (habreast c.now rfl) (hdouble c.weight rfl)
  | resetTenant tenant => exact kept_resetTenant hpool h tenant
  | reset now => exact kept_reset hpool h (habreast now rfl)

omit [Rounding] in
theorem sound_start (clock : ℚ) : Pool.Sound ⟨none, clock⟩ := fun _ hp => by cases hp

/-- **A run.** The pool stays sound and every region attuned to it. -/
theorem attuned_of_run (hlimit : Unrounded cfg.pool.budget) {clock : ℚ}
    {log : List (String × Event)} {s : Parties String Pool Region}
    (hrun : (service cfg).Run (Met cfg) (start clock) log s) :
    s.shared.Sound ∧ ∀ r, Attuned r s.shared (s.party r) := by
  refine run_each (S := Pool.Sound) (I := fun r pool s => Attuned r pool s) (sound_start clock)
    (fun r => attuned_none fun _ _ => rfl) ?_ hrun
  intro s region a pool' s' l hpool hall hok hstep
  have hkept := kept_call hlimit hpool (hall region) hok.1 hok.2
  rw [Option.some.inj hstep] at hkept
  exact ⟨hkept.sound, hkept.attuned, fun r hr => (hall r).of_sameHeld (hkept.others r hr)⟩

/-- **A federated weighted fair escrow does not stall where the way is clear, and nowhere else**,
for any regions, tenants, weights and costs, any order of checks, resets, evictions and rolls, as
long as a call finds pool and region in the window of its reading. A check that is denied leaves its
region with the whole budget or with all that the pool would grant it, if and only if the needs rise
to the room that the others leave or to a budget that admits. -/
theorem unstalled_iff_keepsClimbing (cfg : Config) (hlimit : Unrounded cfg.pool.budget) {clock : ℚ}
    {log : List (String × Event)} {s : Parties String Pool Region}
    (hrun : (service cfg).Run (Met cfg) (start clock) log s) (region : String) (c : Check)
    (hmet : Met cfg s (region, .check c)) :
    Unstalled cfg region s.shared (s.party region) c ↔
      KeepsClimbing cfg region s.shared (s.party region) c := by
  obtain ⟨hpool, hall⟩ := attuned_of_run hlimit hrun
  cases hvalid : validateInputs c with
  | error e =>
    -- a check that throws on its arguments denies nothing
    have hsilent : ¬(checkSync cfg region s.shared (s.party region) c).2.2.any Event.denies
        = true := by
      rw [checkSync, hvalid]
      exact Bool.false_ne_true
    constructor
    · intro _ hok
      cases hvalid.symm.trans hok
    · intro _
      exact ⟨fun h => absurd h hsilent, fun h => absurd h hsilent⟩
  | ok =>
    have harrived :=
      (hall region).arrived hlimit hpool (hmet.1 c.now rfl) (hmet.2 c.weight rfl) hvalid
    rw [harrived.unstalled_iff hvalid, harrived.stuck_iff, not_not]
    exact ⟨fun h _ => h, fun h => h hvalid⟩

/-- The clock does not go back, windows are of whole numbers, and weights are numbers of the
arithmetic. -/
def Whole (cfg : Config) (s : Parties String Pool Region) (a : String × Call) : Prop :=
  InOrder s a ∧ (∀ t ∈ a.2.now?, WholeAt cfg.pool.windowMs t) ∧
    ∀ weight ∈ a.2.weight?, Unrounded weight

theorem OnTime.call {s : Parties String Pool Region} {region : String} {a : Call}
    (h : OnTime cfg s) (hwhole : Whole cfg s (region, a)) :
    OnTime cfg ⟨(call cfg region s.shared (s.party region) a).1, Function.update s.party region
      (FederatedFairEscrow.call cfg region s.shared (s.party region) a).2.1⟩ := by
  obtain ⟨horder, hcut, -⟩ := hwhole
  cases a with
  | check c => exact h.checkSync ⟨horder c.now rfl, hcut c.now rfl⟩
  | resetTenant tenant =>
    refine h.update le_rfl (fun p hp => .inl hp) fun w hw => ?_
    obtain ⟨w', hw', rfl⟩ := Option.map_eq_some_iff.mp hw
    exact h.party region w' hw'
  | reset now =>
    have hle : s.shared.clock ≤ now := horder now rfl
    cases hparty : s.party region with
    | none =>
      simp only [FederatedFairEscrow.call, FederatedFairEscrow.reset]
      exact h.update hle (fun p hp => .inl hp) fun w hw => by cases hw
    | some w =>
      have habreast : Abreast cfg.pool s.shared none now := by
        refine ⟨(hcut now rfl).inside cfg.pool.windowMs_pos, fun p hp => ?_,
          fun w hw => by cases hw⟩
        exact ((h.pool p hp).mono hle).meets (hcut now rfl)
      simp only [FederatedFairEscrow.call, FederatedFairEscrow.reset]
      refine h.update hle (fun p hp => .inr ?_) fun w hw => by cases hw
      obtain rfl := Option.some.inj hp
      exact ⟨now, le_rfl, hcut now rfl, habreast.rollWindow_windowStart⟩

/-- **On a clock that does not go back**, with windows of whole numbers, a call finds pool and
region in the window of its reading. -/
theorem met_of_whole {clock : ℚ} {log : List (String × Event)} {s : Parties String Pool Region}
    (hrun : (service cfg).Run (Whole cfg) (start clock) log s) :
    (service cfg).Run (Met cfg) (start clock) log s := by
  have hboth : OnTime cfg s ∧ (service cfg).Run (Met cfg) (start clock) log s := by
    induction hrun with
    | nil => exact ⟨.start cfg clock, .nil⟩
    | snoc _ hok hstep ih =>
      refine ⟨?_, ih.2.snoc ⟨fun t ht => ?_, hok.2.2⟩ hstep⟩
      · obtain ⟨pool', party', l, hcall, rfl, -⟩ := machine_eq_some hstep
        have hnext := ih.1.call hok
        rwa [Option.some.inj hcall] at hnext
      · exact ⟨(hok.2.1 t ht).inside cfg.pool.windowMs_pos,
          fun p hp => ((ih.1.pool p hp).mono (hok.1 t ht)).meets (hok.2.1 t ht),
          fun w hw => ((ih.1.party _ w hw).mono (hok.1 t ht)).meets (hok.2.1 t ht)⟩
  exact hboth.2

end Service

/-! ### The condition is needed -/

/-- A thousand units a second. -/
def thousandASecond : Config := ⟨⟨1000, 1000, second_pos, second_pos⟩, fun _ => none⟩

/-- The checks of a region by tenants of equal weight, at one instant. -/
def unitChecks (tenants : List String) : List (String × Call) :=
  tenants.map fun tenant => ("us", .check ⟨tenant, 1, 1, 0⟩)

/-- Three tenants have one unit each, and the first asks for a second; then it asks for a third. -/
theorem unstalled_iff_keepsClimbing_three_tenants :
    @KeepsClimbing doubles thousandASecond "us"
      (((@service doubles thousandASecond).exec (start 0) (unitChecks ["A", "B", "C"])).get
        (by decide +kernel)).1.shared
      ((((@service doubles thousandASecond).exec (start 0) (unitChecks ["A", "B", "C"])).get
        (by decide +kernel)).1.party "us") ⟨"A", 1, 1, 0⟩ ∧
    ¬@KeepsClimbing doubles thousandASecond "us"
      (((@service doubles thousandASecond).exec (start 0) (unitChecks ["A", "B", "C", "A"])).get
        (by decide +kernel)).1.shared
      ((((@service doubles thousandASecond).exec (start 0) (unitChecks ["A", "B", "C", "A"])).get
        (by decide +kernel)).1.party "us") ⟨"A", 1, 1, 0⟩ := by
  constructor
  · refine (@unstalled_iff_keepsClimbing doubles thousandASecond (by decide +kernel) _ _ _
      (run_of_isSome (by decide +kernel) (by decide +kernel)) "us" ⟨"A", 1, 1, 0⟩
      (by decide +kernel)).mp (@Unstalled.mk doubles _ _ _ _ _ (fun h => ?_) fun h => ?_)
    · exact absurd h (by decide +kernel)
    · exact absurd h (by decide +kernel)
  · intro hclear
    have hun := (@unstalled_iff_keepsClimbing doubles thousandASecond (by decide +kernel) _ _ _
      (run_of_isSome (by decide +kernel) (by decide +kernel)) "us" ⟨"A", 1, 1, 0⟩
      (by decide +kernel)).mpr hclear
    exact absurd (@Unstalled.capped doubles _ _ _ _ _ hun (by decide +kernel)) (by decide +kernel)

/-- **A region stalls far from the budget.** It holds five units of a thousand, of which its three
tenants have used four; a third unit for the first of them is denied, as five is all that the check
needs, and of five its share is one. -/
theorem not_unstalled :
    ¬ ∀ (cfg : Config) (clock : ℚ) (log : List (String × Event)) (s : Parties String Pool Region),
      (@service doubles cfg).Run InOrder (start clock) log s → ∀ (region : String) (c : Check),
        s.shared.clock ≤ c.now → @Unstalled doubles cfg region s.shared (s.party region) c := by
  intro h
  have hrun := run_of_isSome (m := @service doubles thousandASecond) (p := InOrder) (s := start 0)
    (l := unitChecks ["A", "B", "C", "A"]) (by decide +kernel) (by decide +kernel)
  have hun := h _ _ _ _ hrun "us" ⟨"A", 1, 1, 0⟩ (by decide +kernel)
  exact absurd (@Unstalled.capped doubles _ _ _ _ _ hun (by decide +kernel)) (by decide +kernel)

/-- Where the pool would grant more to a region that denies, the region's budget. -/
def stalledAt (calls : List (String × Call)) (c : Check) : Option ℚ :=
  ((@service doubles thousandASecond).exec (start 0) calls).bind fun r =>
    let out := @checkSync doubles thousandASecond "us" r.1.shared (r.1.party "us") c
    out.2.1.bind fun w =>
      if out.2.2.any Event.denies ∧ @raises doubles thousandASecond.pool out.1 "us" w c.now = true
      then some w.regionBudget else none

-- a light tenant beside a heavy one: the rounds of the loop give out
example : stalledAt [("us", .check ⟨"A", 10, 1, 0⟩), ("us", .check ⟨"B", 1, 999, 0⟩)]
    ⟨"A", 1, 1, 0⟩ = some 651 := by
  decide +kernel

-- the doubles next to 0.6 and 0.4: a budget of 2 covers what is needed, and leaves less
example : stalledAt [("us", .check ⟨"A", Double.roundRat (3 / 5), 1, 0⟩),
    ("us", .check ⟨"B", 1, 1, 0⟩)] ⟨"A", Double.roundRat (2 / 5), 1, 0⟩ = some 2 := by
  decide +kernel

end ThrottleKit.FederatedFairEscrow
