import ThrottleKit.Lib.Purse
import ThrottleKit.TwoTier.FederatedFairEscrow

/-!
# The limit of a federated weighted fair escrow

The grants of the pool add up to no more than the budget of its window, as each region grows only
into what the others neither hold nor are guaranteed. A region's budget is what it was granted in
its window, and it admits no more than that, evicted tenants counted. So the regions together admit
no more than the budget in a window, as long as pool and region mean the same window when one asks
the other, and neither loses a part of what it counts to a rounding.

On a clock that does not go back they do, where windows are of whole numbers. When it goes back, a
new region opens a past window and is granted units of the window that the pool has come to.

## Main definitions

* `leasedIn`, `admittedIn` — what a run leased and admitted in a window
* `InStep` — a check that asks the pool finds it in the window of its region
* `RollsOn`, `Counted` — windows are left for later ones, and nothing is lost of a count

## Main results

* `Pooled.grant`, `ensureRegionBudget_spec`, `Safe.step` — what a grant, a loop and a check preserve
* `federated_admitted_le_limit` — the bounds over a run
* `inStep_of_forward` — on a clock that does not go back the condition is met
* `late_region_exceeds_limit` — without it the bound fails
-/

namespace ThrottleKit.FederatedFairEscrow

open Machine Parties Purse Rounding

/-- What an event leases in the window starting at `t`. -/
def leaseOf (t : ℚ) : Event → ℚ
  | .leased window amount => if window = t then amount else 0
  | _ => 0

/-- What an event admits in the window starting at `t`. -/
def admitOf (t : ℚ) : Event → ℚ
  | .decided window cost d => if d.allowed ∧ window = t then cost else 0
  | _ => 0

/-- What was leased in the window starting at `t`. -/
def leasedIn (t : ℚ) (log : List Event) : ℚ := (log.map (leaseOf t)).sum

/-- The cost of the checks admitted in the window starting at `t`. -/
def admittedIn (t : ℚ) (log : List Event) : ℚ := (log.map (admitOf t)).sum

@[simp] theorem leasedIn_nil (t : ℚ) : leasedIn t [] = 0 := rfl

@[simp] theorem admittedIn_nil (t : ℚ) : admittedIn t [] = 0 := rfl

@[simp] theorem leasedIn_append (t : ℚ) (l l' : List Event) :
    leasedIn t (l ++ l') = leasedIn t l + leasedIn t l' := by simp [leasedIn]

@[simp] theorem admittedIn_append (t : ℚ) (l l' : List Event) :
    admittedIn t (l ++ l') = admittedIn t l + admittedIn t l' := by simp [admittedIn]

@[simp] theorem leasedIn_singleton (t : ℚ) (e : Event) : leasedIn t [e] = leaseOf t e := by
  simp [leasedIn]

@[simp] theorem admittedIn_singleton (t : ℚ) (e : Event) : admittedIn t [e] = admitOf t e := by
  simp [admittedIn]

variable {o : PoolOptions} {cfg : Config}

/-! ### What a grant does -/

/-- What the regions were granted together. -/
def PoolWindow.total (p : PoolWindow) : ℚ := p.regions.sum fun _ r => r.granted

theorem PoolOptions.budget_nonneg (o : PoolOptions) : (0 : ℚ) ≤ o.budget := by
  exact_mod_cast Int.floor_nonneg.mpr o.limit_pos.le

/-- What a region has used, evicted tenants counted. -/
def RegionWindow.used (w : RegionWindow) : ℚ := w.evictedUsed + w.tenants.sum fun _ t => t.used

theorem sum_set_granted (p : PoolWindow) (region : String) (r : RegionEntry) :
    (p.regions.set region r).sum (fun _ r => r.granted)
      = p.total + (r.granted - p.grantedTo region) := by
  rw [OrderedMap.sum_set, PoolWindow.total, PoolWindow.grantedTo]
  cases hlook : p.regions.lookup region with
  | none =>
    rw [OrderedMap.sum_erase_of_lookup_eq_none _ hlook, Option.elim_none]
    ring
  | some held =>
    rw [OrderedMap.sum_eq_add_sum_erase _ hlook, Option.elim_some]
    ring

section Grants

variable [Rounding]

/-- What the other regions leave of the budget to `region`, at a weight. -/
def roomFor (o : PoolOptions) (p : PoolWindow) (region : String) (weight : ℚ) : ℚ :=
  fl (o.budget - othersHold o (p.regions.set region ⟨weight, p.grantedTo region⟩) region)

/-- What is left to a region is no more than what the others were not granted. -/
def RoomKept (o : PoolOptions) (p : PoolWindow) (region : String) (weight : ℚ) : Prop :=
  roomFor o p region weight + (p.regions.erase region).sum (fun _ r => r.granted) ≤ o.budget

instance (o : PoolOptions) (p : PoolWindow) (region : String) (weight : ℚ) :
    Decidable (RoomKept o p region weight) :=
  inferInstanceAs (Decidable (_ ≤ _))

/-- What a region was granted is nothing to what the others hold. -/
theorem othersHold_set (o : PoolOptions) (m : OrderedMap String RegionEntry) (region : String)
    (weight a b : ℚ) : othersHold o (m.set region ⟨weight, a⟩) region
      = othersHold o (m.set region ⟨weight, b⟩) region := by
  have hweights (a : ℚ) : (m.set region ⟨weight, a⟩).entries.map (fun e => e.2.weight)
      = ((m.mapVal (·.weight)).set region weight).entries.map Prod.snd := by
    rw [← OrderedMap.mapVal_set RegionEntry.weight m region ⟨weight, a⟩, OrderedMap.mapVal,
      List.map_map]
    rfl
  have hothers (a : ℚ) : (m.set region ⟨weight, a⟩).entries.filter (fun e => e.1 ≠ region)
      = m.entries.filter fun e => e.1 ≠ region :=
    OrderedMap.erase_set_entries region _ m.entries
  simp only [othersHold, hweights, hothers]

/-- What a grant leaves of the rolled window `p₀`. -/
structure Granted (o : PoolOptions) (p₀ p : PoolWindow) (region : String)
    (weight wantTotal granted : ℚ) : Prop where
  windowStart : p.windowStart = p₀.windowStart
  own : p.grantedTo region = granted
  others : ∀ r, r ≠ region → p.grantedTo r = p₀.grantedTo r
  raised : p₀.grantedTo region ≤ granted
  total : p.total = p₀.total + (granted - p₀.grantedTo region)
  weight_pos : 0 < weight
  amount : granted = if wantTotal ≤ p₀.grantedTo region then p₀.grantedTo region
    else min wantTotal (max (p₀.grantedTo region) (roomFor o p₀ region weight))
  room : roomFor o p region weight = roomFor o p₀ region weight
  erased : p.regions.erase region = p₀.regions.erase region

/-- **A grant** is raised into what the other regions leave, or stays. -/
theorem granted_of_grant {pool : Pool} {region : String} {weight wantTotal now granted : ℚ}
    {p : PoolWindow} (h : grant o pool region weight wantTotal now = some (p, granted)) :
    Granted o (pool.rollWindow o now) p region weight wantTotal granted := by
  have herase (m : OrderedMap String RegionEntry) (r : RegionEntry) :
      (m.set region r).erase region = m.erase region :=
    OrderedMap.ext (OrderedMap.erase_set_entries region r m.entries)
  unfold grant at h
  split at h
  · rename_i hweight
    generalize pool.rollWindow o now = p₀ at h ⊢
    dsimp only at h
    split at h
    · rename_i hwant
      obtain ⟨rfl, rfl⟩ := Prod.mk.inj (Option.some.inj h)
      have hown : (⟨p₀.windowStart, p₀.regions.set region ⟨weight, p₀.grantedTo region⟩⟩ :
          PoolWindow).grantedTo region = p₀.grantedTo region := by
        simp [PoolWindow.grantedTo]
      have htotal := sum_set_granted p₀ region ⟨weight, p₀.grantedTo region⟩
      refine ⟨rfl, hown, fun r hr => ?_, le_rfl, htotal, hweight, (if_pos hwant).symm, ?_,
        herase _ _⟩
      · simp [PoolWindow.grantedTo, OrderedMap.lookup_set_of_ne _ _ (Ne.symm hr)]
      · rw [roomFor, hown, OrderedMap.set_set, roomFor]
    · rename_i hwant
      obtain ⟨rfl, rfl⟩ := Prod.mk.inj (Option.some.inj h)
      rw [OrderedMap.set_set]
      set granted := min wantTotal (max (p₀.grantedTo region)
        (fl (o.budget - othersHold o (p₀.regions.set region ⟨weight, p₀.grantedTo region⟩) region)))
      have hown : (⟨p₀.windowStart, p₀.regions.set region ⟨weight, granted⟩⟩ :
          PoolWindow).grantedTo region = granted := by
        simp [PoolWindow.grantedTo]
      refine ⟨rfl, hown, fun r hr => ?_, le_min (not_le.mp hwant).le (le_max_left _ _),
        sum_set_granted p₀ region ⟨weight, granted⟩, hweight, (if_neg hwant).symm, ?_, herase _ _⟩
      · simp [PoolWindow.grantedTo, OrderedMap.lookup_set_of_ne _ _ (Ne.symm hr)]
      · rw [roomFor, hown, OrderedMap.set_set, roomFor,
          othersHold_set o p₀.regions region weight granted (p₀.grantedTo region)]
  · cases h

section Granted

variable {p₀ p : PoolWindow} {region : String} {weight wantTotal granted : ℚ}

/-- What is left to a region stays what it is. -/
theorem Granted.roomKept (h : Granted o p₀ p region weight wantTotal granted)
    (hkept : RoomKept o p₀ region weight) : RoomKept o p region weight := by
  rwa [RoomKept, h.room, h.erased]

/-- **The grants stay within the budget**, when the region is left no more than there is. -/
theorem Granted.le_budget (h : Granted o p₀ p region weight wantTotal granted)
    (hkept : RoomKept o p₀ region weight) (hle : p₀.total ≤ o.budget) : p.total ≤ o.budget := by
  have hamount := h.amount
  split at hamount
  · rw [h.total, hamount, sub_self, add_zero]
    exact hle
  · rename_i hwant
    -- either the grant stays, or it grows into what the others leave
    have hmax : granted ≤ max (p₀.grantedTo region) (roomFor o p₀ region weight) :=
      hamount.trans_le (min_le_right _ _)
    rcases le_max_iff.mp hmax with hstay | hgrow
    · rw [h.total]
      linarith
    · have hlook : p.total = granted + (p₀.regions.erase region).sum fun _ r => r.granted := by
        rw [← h.erased, PoolWindow.total]
        have hown := h.own
        rw [PoolWindow.grantedTo] at hown
        cases hlookup : p.regions.lookup region with
        | none =>
          rw [hlookup, Option.elim_none] at hown
          rw [OrderedMap.sum_erase_of_lookup_eq_none _ hlookup, ← hown, zero_add]
        | some r =>
          rw [hlookup, Option.elim_some] at hown
          rw [OrderedMap.sum_eq_add_sum_erase _ hlookup, hown]
      rw [hlook]
      exact (add_le_add_left hgrow _).trans hkept

/-- A grant is a number of the arithmetic, when what was held and what is wanted are. -/
theorem Granted.unrounded (h : Granted o p₀ p region weight wantTotal granted)
    (hheld : Unrounded (p₀.grantedTo region)) (hwant : Unrounded wantTotal) :
    Unrounded granted := by
  rw [h.amount]
  split
  · exact hheld
  · exact hwant.min (hheld.max (fl_fl _))

end Granted

end Grants

/-! ### The pool -/

/-- The grants of the pool are what was leased in its window, in total and by each region, and no
window leases more than the budget. -/
structure Pooled [Rounding] (o : PoolOptions) (pool : Pool) (log : List (String × Event)) :
    Prop where
  granted : ∀ p ∈ pool.window, ∀ r, leasedIn p.windowStart (outputsOf r log) = p.grantedTo r
  total : ∀ p ∈ pool.window, leasedIn p.windowStart (log.map Prod.snd) = p.total
  later : ∀ t, (∀ p ∈ pool.window, p.windowStart < t) →
    (∀ r, leasedIn t (outputsOf r log) = 0) ∧ leasedIn t (log.map Prod.snd) = 0
  le_budget : ∀ t, leasedIn t (log.map Prod.snd) ≤ o.budget
  raised : ∀ x ∈ log, ∀ t, 0 ≤ leaseOf t x.2
  unrounded : ∀ p ∈ pool.window, ∀ r, Unrounded (p.grantedTo r)

section Pool

variable [Rounding] {pool : Pool} {log : List (String × Event)} {now : ℚ}

theorem pooled_start (clock : ℚ) : Pooled o ⟨none, clock⟩ [] where
  granted p h := by cases h
  total p h := by cases h
  later t _ := ⟨fun r => rfl, rfl⟩
  le_budget t := o.budget_nonneg
  raised x h := by cases h
  unrounded p h := by cases h

/-- When the window of the pool is left, it is left for a later one. -/
def Pool.RollsOn (o : PoolOptions) (pool : Pool) (now : ℚ) : Prop :=
  ∀ p ∈ pool.window, fl (p.windowStart + o.windowMs) ≤ now →
    p.windowStart < startOf o.windowMs now

instance (o : PoolOptions) (pool : Pool) (now : ℚ) : Decidable (pool.RollsOn o now) :=
  inferInstanceAs (Decidable (∀ p ∈ pool.window, _ → _ < startOf o.windowMs now))

theorem Pool.rollWindow_cases (h : pool.RollsOn o now) :
    pool.window = some (pool.rollWindow o now) ∨
    pool.rollWindow o now = ⟨startOf o.windowMs now, .empty⟩ ∧
      ∀ p ∈ pool.window, p.windowStart < startOf o.windowMs now := by
  cases hwindow : pool.window with
  | none => exact .inr ⟨by simp [Pool.rollWindow, hwindow], fun p h => by cases h⟩
  | some p =>
    by_cases hroll : fl (p.windowStart + o.windowMs) ≤ now
    · refine .inr ⟨by simp [Pool.rollWindow, hwindow, hroll], ?_⟩
      rintro p' ⟨⟩
      exact h p hwindow hroll
    · exact .inl (by simp [Pool.rollWindow, hwindow, hroll])

theorem Pooled.roll (h : Pooled o pool log) (hon : pool.RollsOn o now) :
    Pooled o { pool with window := some (pool.rollWindow o now) } log := by
  rcases pool.rollWindow_cases hon with hstay | ⟨hnew, hlater⟩
  · rw [← hstay]
    exact h
  · obtain ⟨hown, hall⟩ := h.later _ hlater
    rw [hnew]
    refine ⟨?_, ?_, fun t ht => ?_, h.le_budget, h.raised, ?_⟩
    · rintro p ⟨⟩ r
      exact hown r
    · rintro p ⟨⟩
      exact hall
    · exact h.later t fun p hp => (hlater p hp).trans (ht _ rfl)
    · rintro p ⟨⟩ r
      exact fl_zero

/-- **A grant keeps the pool within its budget.** -/
theorem Pooled.grant {region : String} {weight wantTotal granted : ℚ} {p : PoolWindow}
    (h : Pooled o pool log) (hon : pool.RollsOn o now)
    (hgrant : FederatedFairEscrow.grant o pool region weight wantTotal now = some (p, granted))
    (hkept : RoomKept o (pool.rollWindow o now) region weight) (hwant : Unrounded wantTotal) :
    Pooled o { pool with window := some p } (log ++ [(region,
      .leased p.windowStart (granted - (pool.rollWindow o now).grantedTo region))]) := by
  have hroll := h.roll hon
  have hg := granted_of_grant hgrant
  generalize pool.rollWindow o now = p₀ at hroll hg hkept ⊢
  have hamount : 0 ≤ granted - p₀.grantedTo region := sub_nonneg.mpr hg.raised
  have hown (t : ℚ) (r : String) : leasedIn t (outputsOf r (log ++ [(region,
      Event.leased p.windowStart (granted - p₀.grantedTo region))]))
        = leasedIn t (outputsOf r log)
          + if r = region ∧ p.windowStart = t then granted - p₀.grantedTo region else 0 := by
    by_cases hr : region = r
    · simp [outputsOf, hr, leaseOf]
    · simp [outputsOf, hr, Ne.symm hr]
  have hall (t : ℚ) : leasedIn t ((log ++ [(region,
      Event.leased p.windowStart (granted - p₀.grantedTo region))]).map Prod.snd)
        = leasedIn t (log.map Prod.snd)
          + if p.windowStart = t then granted - p₀.grantedTo region else 0 := by
    simp [leaseOf]
  have htotal : leasedIn p.windowStart (log.map Prod.snd) = p₀.total := by
    rw [hg.windowStart]
    exact hroll.total p₀ rfl
  refine ⟨?_, ?_, fun t ht => ?_, fun t => ?_, ?_, ?_⟩
  · rintro _ ⟨⟩ r
    rw [hown, hg.windowStart, hroll.granted p₀ rfl r]
    by_cases hr : r = region
    · subst hr
      rw [if_pos ⟨rfl, rfl⟩, hg.own]
      ring
    · rw [if_neg fun hc => hr hc.1, hg.others r hr, add_zero]
  · rintro _ ⟨⟩
    rw [hall, if_pos rfl, htotal, hg.total]
  · have hne : ¬p.windowStart = t := (ht p rfl).ne
    obtain ⟨hzero, hzero'⟩ := hroll.later t fun p' hp' => by
      obtain rfl := Option.some.inj hp'
      exact hg.windowStart ▸ ht p rfl
    refine ⟨fun r => ?_, ?_⟩
    · rw [hown, if_neg fun hc => hne hc.2, hzero, add_zero]
    · rw [hall, if_neg hne, hzero', add_zero]
  · by_cases ht : p.windowStart = t
    · have hle : p₀.total ≤ o.budget := by
        rw [← htotal]
        exact h.le_budget _
      rw [hall, ← ht, if_pos rfl, htotal, ← hg.total]
      exact hg.le_budget hkept hle
    · rw [hall, if_neg ht, add_zero]
      exact h.le_budget t
  · intro x hx t
    rcases List.mem_append.mp hx with hmem | hmem
    · exact h.raised x hmem t
    · rw [List.mem_singleton.mp hmem, leaseOf]
      split
      · exact hamount
      · exact le_rfl
  · rintro _ ⟨⟩ r
    by_cases hr : r = region
    · subst hr
      rw [hg.own]
      exact hg.unrounded (hroll.unrounded p₀ rfl r) hwant
    · rw [hg.others r hr]
      exact hroll.unrounded p₀ rfl r

/-- What leases nothing is nothing to the pool. -/
theorem Pooled.silent (h : Pooled o pool log) (r : String) {e : Event} (he : ∀ t, leaseOf t e = 0) :
    Pooled o pool (log ++ [(r, e)]) := by
  have hown (t : ℚ) (r' : String) :
      leasedIn t (outputsOf r' (log ++ [(r, e)])) = leasedIn t (outputsOf r' log) := by
    by_cases hr : r = r'
    · simp [outputsOf, hr, he]
    · simp [outputsOf, hr]
  have hall (t : ℚ) :
      leasedIn t ((log ++ [(r, e)]).map Prod.snd) = leasedIn t (log.map Prod.snd) := by
    simp [he]
  refine ⟨fun p hp r' => ?_, fun p hp => ?_, fun t ht => ?_, fun t => ?_, fun x hx t => ?_,
    h.unrounded⟩
  · rw [hown, h.granted p hp]
  · rw [hall, h.total p hp]
  · rw [hall]
    exact ⟨fun r' => (hown t r').trans ((h.later t ht).1 r'), (h.later t ht).2⟩
  · rw [hall]
    exact h.le_budget t
  · rcases List.mem_append.mp hx with hmem | hmem
    · exact h.raised x hmem t
    · rw [List.mem_singleton.mp hmem, he]

end Pool

/-! ### A region -/

/-- A region has admitted in its window no more than its tenants used; its budget is what it leased
in that window, and in no window did it admit more than it leased. -/
structure Within [Rounding] (s : Region) (log : List Event) : Prop where
  admitted : ∀ w ∈ s, admittedIn w.windowStart log ≤ w.used
  budget : ∀ w ∈ s, w.regionBudget = leasedIn w.windowStart log
  unrounded : ∀ w ∈ s, Unrounded w.regionBudget
  later : ∀ t, (∀ w ∈ s, w.windowStart < t) → admittedIn t log = 0 ∧ leasedIn t log = 0
  nonneg : ∀ t, 0 ≤ admittedIn t log
  le : ∀ t, admittedIn t log ≤ leasedIn t log

section Region

variable [Rounding] {s : Region} {w w' : RegionWindow} {log : List Event} {k : Asker} {now : ℚ}

theorem within_start : Within none [] where
  admitted w h := by cases h
  budget w h := by cases h
  unrounded w h := by cases h
  later t _ := ⟨rfl, rfl⟩
  nonneg t := le_rfl
  le t := le_rfl

/-- When the window of a region is left, it is left for a later one. -/
def Region.RollsOn (o : PoolOptions) (s : Region) (now : ℚ) : Prop :=
  ∀ w ∈ s, fl (w.windowStart + o.windowMs) ≤ now → w.windowStart < startOf o.windowMs now

instance (o : PoolOptions) : (s : Region) → (now : ℚ) → Decidable (Region.RollsOn o s now)
  | none, _ => isTrue fun _ h => by cases h
  | some w, now =>
    decidable_of_iff
      (fl (w.windowStart + o.windowMs) ≤ now → w.windowStart < startOf o.windowMs now)
      ⟨fun h => by rintro _ ⟨⟩; exact h, fun h => h w rfl⟩

/-- The window that a region opens has no budget. -/
theorem rollRegion_cases (h : Region.RollsOn o s now) :
    s = some (rollRegion o s now) ∨
    rollRegion o s now = ⟨startOf o.windowMs now, 0, 0, .empty⟩ ∧
      ∀ w ∈ s, w.windowStart < startOf o.windowMs now := by
  cases s with
  | none => exact .inr ⟨rfl, fun w h => by cases h⟩
  | some w =>
    by_cases hroll : fl (w.windowStart + o.windowMs) ≤ now
    · refine .inr ⟨by simp [rollRegion, hroll], ?_⟩
      rintro w' ⟨⟩
      exact h w rfl hroll
    · exact .inl (by simp [rollRegion, hroll])

theorem Within.roll (h : Within s log) (hon : Region.RollsOn o s now) :
    Within (some (rollRegion o s now)) log := by
  rcases rollRegion_cases hon with hstay | ⟨hnew, hlater⟩
  · rw [← hstay]
    exact h
  · obtain ⟨hadmitted, hleased⟩ := h.later _ hlater
    rw [hnew]
    refine ⟨?_, ?_, ?_, fun t ht => ?_, h.nonneg, h.le⟩
    · rintro w ⟨⟩
      simpa [RegionWindow.used] using hadmitted.le
    · rintro w ⟨⟩
      exact hleased.symm
    · rintro w ⟨⟩
      exact fl_zero
    · exact h.later t fun w hw => (hlater w hw).trans (ht _ rfl)

/-- What keeps the window and its budget, and loses nothing of what was used, keeps the cover. -/
theorem Within.congr (h : Within (some w) log) (hstart : w'.windowStart = w.windowStart)
    (hbudget : w'.regionBudget = w.regionBudget) (hused : w.used ≤ w'.used) :
    Within (some w') log := by
  refine ⟨?_, ?_, ?_, fun t ht => ?_, h.nonneg, h.le⟩
  · rintro _ ⟨⟩
    rw [hstart]
    exact (h.admitted w rfl).trans hused
  · rintro _ ⟨⟩
    rw [hbudget, hstart]
    exact h.budget w rfl
  · rintro _ ⟨⟩
    rw [hbudget]
    exact h.unrounded w rfl
  · refine h.later t ?_
    rintro _ ⟨⟩
    exact hstart ▸ ht w' rfl

theorem evict_windowStart (maxKeys : Option ℚ) (w : RegionWindow) :
    (evict maxKeys w).windowStart = w.windowStart ∧
      (evict maxKeys w).regionBudget = w.regionBudget := by
  unfold evict
  split
  · split <;> exact ⟨rfl, rfl⟩
  · exact ⟨rfl, rfl⟩

/-- A check arrives in the rolled window, which keeps its budget, and holds its entry. -/
theorem arrive_spec (cfg : Config) (region : String) (s : Region) (c : Check) :
    (arrive cfg region s c).1.windowStart = (rollRegion cfg.pool s c.now).windowStart ∧
    (arrive cfg region s c).1.regionBudget = (rollRegion cfg.pool s c.now).regionBudget ∧
    (arrive cfg region s c).1.tenants.lookup (arrive cfg region s c).2.tenant
      = some (arrive cfg region s c).2.entry ∧
    (arrive cfg region s c).2.cost = c.cost ∧ (arrive cfg region s c).2.now = c.now := by
  unfold arrive
  generalize rollRegion cfg.pool s c.now = w
  cases hlook : w.tenants.lookup c.tenant with
  | some entry =>
    simp only [hlook]
    exact ⟨trivial, trivial, OrderedMap.lookup_set_self _ _ _, trivial, trivial⟩
  | none =>
    obtain ⟨hstart, hbudget⟩ := evict_windowStart (cfg.maxKeys region) w
    simp only [hlook]
    exact ⟨hstart, hbudget, OrderedMap.lookup_set_self _ _ _, trivial, trivial⟩

/-- `wouldAdmit` foretells the decision. -/
theorem wouldAdmit_eq_allowed (o : PoolOptions) (w : RegionWindow) (k : Asker) (agg : Totals) :
    wouldAdmit w k agg = (verdict o w k agg).allowed := by
  simp only [wouldAdmit, verdict]
  split
  · rfl
  · split
    · rfl
    · split <;> simp_all

/-- No check is admitted past what the budget leaves. -/
theorem cost_le_of_verdict {agg : Totals} (h : (verdict o w k agg).allowed = true) :
    k.cost ≤ fl (w.regionBudget - agg.totalUsed) := by
  unfold verdict at h
  dsimp only at h
  split at h
  · cases h
  · rename_i hle
    exact not_lt.mp hle

theorem used_charge (h : w.tenants.lookup k.tenant = some k.entry) :
    (charge w k).used = w.used + (fl (k.entry.used + k.cost) - k.entry.used) := by
  simp only [RegionWindow.used, charge]
  rw [OrderedMap.sum_set, OrderedMap.sum_eq_add_sum_erase (fun _ (t : TenantEntry) => t.used) h]
  ring

/-- **A lease** raises the budget by what it adds to what was leased. -/
theorem Within.lease (h : Within (some w) log) {held granted : ℚ}
    (hheld : leasedIn w.windowStart log = held) (hraised : held ≤ granted)
    (hgranted : Unrounded granted) :
    Within (some { w with regionBudget := granted })
      (log ++ [.leased w.windowStart (granted - held)]) := by
  have hleased (t : ℚ) : leasedIn t (log ++ [.leased w.windowStart (granted - held)])
      = leasedIn t log + if w.windowStart = t then granted - held else 0 := by simp [leaseOf]
  have hadmitted (t : ℚ) : admittedIn t (log ++ [.leased w.windowStart (granted - held)])
      = admittedIn t log := by simp [admitOf]
  refine ⟨?_, ?_, ?_, fun t ht => ?_, fun t => ?_, fun t => ?_⟩
  · rintro _ ⟨⟩
    rw [hadmitted]
    exact h.admitted w rfl
  · rintro _ ⟨⟩
    rw [hleased, if_pos rfl, hheld]
    ring
  · rintro _ ⟨⟩
    exact hgranted
  · have hlt := ht { w with regionBudget := granted } rfl
    obtain ⟨hzero, hzero'⟩ := h.later t (by rintro _ ⟨⟩; exact hlt)
    rw [hadmitted, hleased, if_neg hlt.ne, add_zero]
    exact ⟨hzero, hzero'⟩
  · rw [hadmitted]
    exact h.nonneg t
  · rw [hadmitted, hleased]
    have hle := h.le t
    split <;> linarith

/-- What leases and admits nothing is nothing to a region. -/
theorem Within.silent (h : Within s log) {e : Event}
    (he : ∀ t, leaseOf t e = 0 ∧ admitOf t e = 0) : Within s (log ++ [e]) := by
  have hleased (t : ℚ) : leasedIn t (log ++ [e]) = leasedIn t log := by simp [(he t).1]
  have hadmitted (t : ℚ) : admittedIn t (log ++ [e]) = admittedIn t log := by simp [(he t).2]
  refine ⟨fun w hw => ?_, fun w hw => ?_, h.unrounded, fun t ht => ?_, fun t => ?_, fun t => ?_⟩
  · rw [hadmitted]
    exact h.admitted w hw
  · rw [hleased]
    exact h.budget w hw
  · rw [hadmitted, hleased]
    exact h.later t ht
  · rw [hadmitted]
    exact h.nonneg t
  · rw [hadmitted, hleased]
    exact h.le t

/-- The counts of the check `k` lose nothing: its total is what is used, and neither it nor what the
tenant has used loses a part of the cost. -/
structure Tallied (w : RegionWindow) (k : Asker) : Prop where
  total : w.used ≤ w.aggregate.totalUsed
  fits : Unrounded (w.aggregate.totalUsed + k.cost)
  charged : k.entry.used + k.cost ≤ fl (k.entry.used + k.cost)

instance (w : RegionWindow) (k : Asker) : Decidable (Tallied w k) :=
  decidable_of_iff (w.used ≤ w.aggregate.totalUsed ∧ Unrounded (w.aggregate.totalUsed + k.cost) ∧
    k.entry.used + k.cost ≤ fl (k.entry.used + k.cost))
    ⟨fun ⟨h, h', h''⟩ => ⟨h, h', h''⟩, fun ⟨h, h', h''⟩ => ⟨h, h', h''⟩⟩

/-- **A decision** admits what the budget leaves. -/
theorem Within.decide (h : Within (some w) log)
    (hentry : w.tenants.lookup k.tenant = some k.entry) (hcost : 0 < k.cost)
    (htally : Tallied w k) :
    Within (some (if (verdict o w k w.aggregate).allowed then charge w k else w))
      (log ++ [.decided w.windowStart k.cost (verdict o w k w.aggregate)]) := by
  cases hallowed : (verdict o w k w.aggregate).allowed with
  | false => exact h.silent fun t => ⟨rfl, by simp [admitOf, hallowed]⟩
  | true =>
    have hleased (t : ℚ) : leasedIn t (log ++ [.decided w.windowStart k.cost
        (verdict o w k w.aggregate)]) = leasedIn t log := by simp [leaseOf]
    have hadmitted (t : ℚ) : admittedIn t (log ++ [.decided w.windowStart k.cost
        (verdict o w k w.aggregate)])
          = admittedIn t log + if w.windowStart = t then k.cost else 0 := by
      simp [admitOf, hallowed]
    have hold := h.admitted w rfl
    -- what the budget leaves after rounding was there
    have hfits : w.aggregate.totalUsed + k.cost ≤ w.regionBudget :=
      add_le_of_le_fl_sub _ _ _ (h.unrounded w rfl) htally.fits
        (((h.nonneg w.windowStart).trans hold).trans htally.total) hcost
        (cost_le_of_verdict hallowed)
    have hused : admittedIn w.windowStart log + k.cost ≤ (charge w k).used := by
      rw [used_charge hentry]
      linarith [htally.charged]
    rw [if_pos rfl]
    refine ⟨?_, ?_, ?_, fun t ht => ?_, fun t => ?_, fun t => ?_⟩
    · rintro _ ⟨⟩
      show admittedIn w.windowStart _ ≤ _
      rw [hadmitted, if_pos rfl]
      exact hused
    · rintro _ ⟨⟩
      rw [hleased]
      exact h.budget w rfl
    · rintro _ ⟨⟩
      exact h.unrounded w rfl
    · have hlt : w.windowStart < t := ht (charge w k) rfl
      obtain ⟨hzero, hzero'⟩ := h.later t (by rintro _ ⟨⟩; exact hlt)
      rw [hadmitted, hleased, if_neg hlt.ne, add_zero]
      exact ⟨hzero, hzero'⟩
    · rw [hadmitted]
      have hnonneg := h.nonneg t
      split <;> linarith
    · rw [hadmitted, hleased]
      by_cases ht : w.windowStart = t
      · rw [if_pos ht, ← ht, ← h.budget w rfl]
        linarith [htally.total]
      · rw [if_neg ht, add_zero]
        exact h.le t

end Region

/-! ### The loop -/

section Loop

variable [Rounding] {region : String} {k : Asker} {agg : Totals} {pool : Pool}

/-- Rolling the window that a grant left, at the time of the grant, changes nothing. -/
theorem Granted.rollWindow {p : PoolWindow} {now weight want granted : ℚ}
    (h : Granted o (pool.rollWindow o now) p region weight want granted)
    (hstays : now < fl ((pool.rollWindow o now).windowStart + o.windowMs)) (clock : ℚ) :
    Pool.rollWindow o ⟨some p, clock⟩ now = p := by
  rw [← h.windowStart] at hstays
  simp [Pool.rollWindow, not_le.mpr hstays]

/-- A region in the window `w` finds the pool in that window at `now`, which rolls to it once. -/
structure Joined (o : PoolOptions) (pool : Pool) (w : RegionWindow) (now : ℚ) : Prop where
  windowStart : (pool.rollWindow o now).windowStart = w.windowStart
  rollsOn : pool.RollsOn o now
  stays : now < fl ((pool.rollWindow o now).windowStart + o.windowMs)

instance (o : PoolOptions) (pool : Pool) (w : RegionWindow) (now : ℚ) :
    Decidable (Joined o pool w now) :=
  decidable_of_iff ((pool.rollWindow o now).windowStart = w.windowStart ∧ pool.RollsOn o now ∧
    now < fl ((pool.rollWindow o now).windowStart + o.windowMs))
    ⟨fun ⟨h, h', h''⟩ => ⟨h, h', h''⟩, fun ⟨h, h', h''⟩ => ⟨h, h', h''⟩⟩

/-- The pool is found after a grant as before it. -/
theorem Joined.granted {w w' : RegionWindow} {p : PoolWindow} {now weight want granted clock : ℚ}
    (h : Joined o pool w now)
    (hg : Granted o (pool.rollWindow o now) p region weight want granted)
    (hstart : w'.windowStart = w.windowStart) : Joined o ⟨some p, clock⟩ w' now := by
  have hrolled := hg.rollWindow h.stays clock
  have hstays := h.stays
  rw [← hg.windowStart] at hstays
  refine ⟨?_, ?_, ?_⟩
  · rw [hrolled, hg.windowStart, h.windowStart, hstart]
  · rintro _ ⟨⟩ hended
    exact absurd hended (not_le.mpr hstays)
  · rwa [hrolled]

theorem unrounded_need (hlimit : Unrounded o.budget) (w : RegionWindow) (k : Asker) (agg : Totals) :
    Unrounded (need o w k agg) :=
  hlimit.min (fl_fl _)

/-- What the loop leaves alone. -/
theorem ensureRegionBudget_frame (o : PoolOptions) (region : String) (k : Asker) (agg : Totals) :
    ∀ (iters : ℕ) (pool : Pool) (w : RegionWindow),
    (ensureRegionBudget o region k agg iters pool w).window.windowStart = w.windowStart ∧
    (ensureRegionBudget o region k agg iters pool w).window.tenants = w.tenants ∧
    (ensureRegionBudget o region k agg iters pool w).window.evictedUsed = w.evictedUsed ∧
    (ensureRegionBudget o region k agg iters pool w).pool.clock = pool.clock := by
  intro iters
  induction iters with
  | zero =>
    intro pool w
    exact ⟨rfl, rfl, rfl, rfl⟩
  | succ iters ih =>
    intro pool w
    rw [ensureRegionBudget]
    split
    · cases FederatedFairEscrow.grant o pool region agg.totalWeight (need o w k agg) k.now with
      | none => exact ⟨rfl, rfl, rfl, rfl⟩
      | some r =>
        obtain ⟨p, granted⟩ := r
        dsimp only
        split
        · exact ⟨rfl, rfl, rfl, rfl⟩
        · exact ih { pool with window := some p } { w with regionBudget := granted }
    · exact ⟨rfl, rfl, rfl, rfl⟩

/-- The loop leaves the pool as grants leave it. -/
theorem ensureRegionBudget_pool {I : Pool → Prop}
    (hgrant : ∀ pool want p granted, I pool →
      FederatedFairEscrow.grant o pool region agg.totalWeight want k.now = some (p, granted) →
        I { pool with window := some p }) :
    ∀ (iters : ℕ) (pool : Pool) (w : RegionWindow), I pool →
      I (ensureRegionBudget o region k agg iters pool w).pool := by
  intro iters
  induction iters with
  | zero =>
    intro pool w h
    exact h
  | succ iters ih =>
    intro pool w h
    rw [ensureRegionBudget]
    split
    · cases hg : FederatedFairEscrow.grant o pool region agg.totalWeight (need o w k agg) k.now with
      | none => exact h
      | some r =>
        obtain ⟨p, granted⟩ := r
        have hnext := hgrant pool _ p granted h hg
        dsimp only
        split
        · exact hnext
        · exact ih _ _ hnext
    · exact h

/-- **What the loop preserves**, round by round: the pool's cover and the region's. -/
theorem ensureRegionBudget_spec (hlimit : Unrounded o.budget) : ∀ (iters : ℕ) (pool : Pool)
    (w : RegionWindow) (log : List (String × Event)),
    Pooled o pool log → Within (some w) (outputsOf region log) →
    (asksPool o w k agg = true → Joined o pool w k.now ∧
      RoomKept o (pool.rollWindow o k.now) region agg.totalWeight) →
    Pooled o (ensureRegionBudget o region k agg iters pool w).pool
      (log ++ (ensureRegionBudget o region k agg iters pool w).log.map fun e => (region, e)) ∧
    Within (some (ensureRegionBudget o region k agg iters pool w).window)
      (outputsOf region log ++ (ensureRegionBudget o region k agg iters pool w).log) := by
  intro iters
  induction iters with
  | zero =>
    intro pool w log hpool hw _
    simpa [ensureRegionBudget] using And.intro hpool hw
  | succ iters ih =>
    intro pool w log hpool hw hjoined
    rw [ensureRegionBudget]
    by_cases hask : asksPool o w k agg = true
    · rw [if_pos hask]
      cases hgrant : FederatedFairEscrow.grant o pool region agg.totalWeight (need o w k agg)
        k.now with
      | none => simpa using And.intro hpool hw
      | some r =>
        obtain ⟨p, granted⟩ := r
        obtain ⟨hjoin, hroom⟩ := hjoined hask
        have hg := granted_of_grant hgrant
        have hwindow : p.windowStart = w.windowStart := hg.windowStart.trans hjoin.windowStart
        have hrolled := hpool.roll hjoin.rollsOn
        have hheld : leasedIn w.windowStart (outputsOf region log)
            = (pool.rollWindow o k.now).grantedTo region := by
          rw [← hjoin.windowStart]
          exact hrolled.granted _ rfl region
        have hneed := unrounded_need hlimit w k agg
        have hpool' := hpool.grant hjoin.rollsOn hgrant hroom hneed
        have hw' : Within (some { w with regionBudget := granted }) (outputsOf region log ++
            [.leased p.windowStart (granted - (pool.rollWindow o k.now).grantedTo region)]) := by
          rw [hwindow]
          exact hw.lease hheld hg.raised (hg.unrounded (hrolled.unrounded _ rfl region) hneed)
        by_cases hcapped : granted ≤ w.regionBudget
        · simpa [hcapped] using And.intro hpool' hw'
        · obtain ⟨hrest, hwrest⟩ := ih _ { w with regionBudget := granted } _ hpool'
            (by simpa [outputsOf] using hw') fun _ => ⟨hjoin.granted hg rfl, by
              rw [hg.rollWindow hjoin.stays]
              exact hg.roomKept hroom⟩
          simp only [if_neg hcapped]
          exact ⟨by simpa using hrest, by simpa [outputsOf] using hwrest⟩
    · rw [if_neg hask]
      simpa using And.intro hpool hw

end Loop

/-! ### The regions around the pool -/

section Fleet

variable [Rounding] {region : String} {pool : Pool} {s s' : Parties String Pool Region} {c : Check}
  {log new : List (String × Event)} {a : String × Check}

/-- A check that asks the pool finds it in the window of its region. -/
structure InWindow (cfg : Config) (region : String) (pool : Pool) (s : Region) (c : Check) :
    Prop where
  rollsOn : Region.RollsOn cfg.pool s c.now
  joined : asksPool cfg.pool (arrive cfg region s c).1 (arrive cfg region s c).2
      (arrive cfg region s c).1.aggregate = true →
    Joined cfg.pool pool (arrive cfg region s c).1 c.now

instance (cfg : Config) (region : String) (pool : Pool) (s : Region) (c : Check) :
    Decidable (InWindow cfg region pool s c) :=
  decidable_of_iff (Region.RollsOn cfg.pool s c.now ∧ (_ → _))
    ⟨fun ⟨h, h'⟩ => ⟨h, h'⟩, fun ⟨h, h'⟩ => ⟨h, h'⟩⟩

/-- A check loses nothing of what the region and the pool count. -/
structure Counted (cfg : Config) (region : String) (pool : Pool) (s : Region) (c : Check) :
    Prop where
  evicted : (rollRegion cfg.pool s c.now).used ≤ (arrive cfg region s c).1.used
  tallied : Tallied (arrive cfg region s c).1 (arrive cfg region s c).2
  room : asksPool cfg.pool (arrive cfg region s c).1 (arrive cfg region s c).2
      (arrive cfg region s c).1.aggregate = true →
    RoomKept cfg.pool (pool.rollWindow cfg.pool c.now) region
      (arrive cfg region s c).1.aggregate.totalWeight

instance (cfg : Config) (region : String) (pool : Pool) (s : Region) (c : Check) :
    Decidable (Counted cfg region pool s c) :=
  decidable_of_iff ((rollRegion cfg.pool s c.now).used ≤ (arrive cfg region s c).1.used ∧
    Tallied (arrive cfg region s c).1 (arrive cfg region s c).2 ∧ (_ → _))
    ⟨fun ⟨h, h', h''⟩ => ⟨h, h', h''⟩, fun ⟨h, h', h''⟩ => ⟨h, h', h''⟩⟩

/-- **The condition**, on a check that does not throw on its arguments. -/
def InStep (cfg : Config) (s : Parties String Pool Region) (a : String × Check) : Prop :=
  (validateInputs a.2).isOk = true →
    InWindow cfg a.1 s.shared (s.party a.1) a.2 ∧ Counted cfg a.1 s.shared (s.party a.1) a.2

instance InStep.decidable (cfg : Config) (s : Parties String Pool Region) (a : String × Check) :
    Decidable (InStep cfg s a) :=
  inferInstanceAs (Decidable (_ → _))

omit [Rounding] in
instance (cfg : Config) (s : Parties String Pool Region) (a : String × Check) :
    Decidable (@InStep doubles cfg s a) :=
  @InStep.decidable doubles cfg s a

/-- The pool and every region have their cover. -/
structure Safe (cfg : Config) (s : Parties String Pool Region) (log : List (String × Event)) :
    Prop where
  pooled : Pooled cfg.pool s.shared log
  within : ∀ r, Within (s.party r) (outputsOf r log)

omit [Rounding] in
theorem pos_of_validateInputs (h : validateInputs c = .ok ()) : 0 < c.cost ∧ 0 < c.weight := by
  unfold validateInputs at h
  split at h
  · cases h
  · split at h
    · cases h
    · rename_i hcost
      split at h
      · exact ⟨pos_of_requireCost hcost, ‹_›⟩
      · cases h

/-- **One check.** -/
theorem checkSync_spec {party : Region} (hlimit : Unrounded cfg.pool.budget)
    (hpool : Pooled cfg.pool pool log) (hparty : Within party (outputsOf region log))
    (hin : (validateInputs c).isOk = true →
      InWindow cfg region pool party c ∧ Counted cfg region pool party c) :
    Pooled cfg.pool (checkSync cfg region pool party c).1
      (log ++ (checkSync cfg region pool party c).2.2.map fun e => (region, e)) ∧
    Within (checkSync cfg region pool party c).2.1
      (outputsOf region log ++ (checkSync cfg region pool party c).2.2) := by
  unfold checkSync
  cases hvalid : validateInputs c with
  | error e =>
    exact ⟨hpool.silent region fun _ => rfl, hparty.silent fun _ => ⟨rfl, rfl⟩⟩
  | ok =>
    obtain ⟨⟨hon, hjoined⟩, hevicted, htally, hroom⟩ := hin (by rw [hvalid]; rfl)
    obtain ⟨hpos, -⟩ := pos_of_validateInputs hvalid
    obtain ⟨hstart, hbudget, hentry, hcost, hnow⟩ := arrive_spec cfg region party c
    have hw := (hparty.roll hon).congr hstart hbudget hevicted
    generalize arrive cfg region party c = arrived at hjoined htally hroom hentry hcost hnow hw ⊢
    obtain ⟨w, k⟩ := arrived
    dsimp only at hjoined htally hroom hentry hcost hnow hw ⊢
    rw [← hnow] at hjoined hroom
    have hticked : Pooled cfg.pool { pool with clock := c.now } log :=
      ⟨hpool.granted, hpool.total, hpool.later, hpool.le_budget, hpool.raised, hpool.unrounded⟩
    obtain ⟨hpooled, hwithin⟩ := ensureRegionBudget_spec hlimit maxLeaseIters
      { pool with clock := c.now } w log hticked hw fun hask =>
        ⟨⟨(hjoined hask).windowStart, (hjoined hask).rollsOn, (hjoined hask).stays⟩, hroom hask⟩
    obtain ⟨-, htenants, hevictedUsed, -⟩ := ensureRegionBudget_frame cfg.pool region k w.aggregate
      maxLeaseIters { pool with clock := c.now } w
    generalize ensureRegionBudget cfg.pool region k w.aggregate maxLeaseIters
      { pool with clock := c.now } w = leased at hpooled hwithin htenants hevictedUsed ⊢
    have hagg : leased.window.aggregate = w.aggregate := by
      rw [RegionWindow.aggregate, htenants, hevictedUsed, RegionWindow.aggregate]
    cases leased.error with
    | some e =>
      rw [List.map_append, ← List.append_assoc, ← List.append_assoc]
      exact ⟨hpooled.silent region fun _ => rfl, hwithin.silent fun _ => ⟨rfl, rfl⟩⟩
    | none =>
      have htally' : Tallied leased.window k := by
        refine ⟨?_, hagg ▸ htally.fits, htally.charged⟩
        rw [hagg, RegionWindow.used, htenants, hevictedUsed]
        exact htally.total
      rw [List.map_append, ← List.append_assoc, ← List.append_assoc, ← hagg, ← hcost]
      exact ⟨hpooled.silent region fun _ => rfl,
        hwithin.decide (by rw [htenants, hentry]) (hcost ▸ hpos) htally'⟩

theorem Safe.start (clock : ℚ) : Safe cfg (FederatedFairEscrow.start clock) [] where
  pooled := pooled_start clock
  within _ := within_start

/-- **One step.** -/
theorem Safe.step (hlimit : Unrounded cfg.pool.budget) (h : Safe cfg s log) (hin : InStep cfg s a)
    (hstep : fleet cfg s a = some (s', new)) : Safe cfg s' (log ++ new) := by
  obtain ⟨region, c⟩ := a
  obtain ⟨pool, party, l, hcheck, rfl, rfl⟩ := machine_eq_some hstep
  obtain ⟨rfl, rfl, rfl⟩ : (checkSync cfg region s.shared (s.party region) c).1 = pool ∧
      (checkSync cfg region s.shared (s.party region) c).2.1 = party ∧
      (checkSync cfg region s.shared (s.party region) c).2.2 = l := by
    rw [Option.some.inj hcheck]
    exact ⟨rfl, rfl, rfl⟩
  obtain ⟨hpooled, hwithin⟩ := checkSync_spec hlimit h.pooled (h.within region) hin
  refine ⟨hpooled, fun r => ?_⟩
  rw [outputsOf_append]
  by_cases hr : region = r
  · subst hr
    rw [outputsOf_map_self]
    simpa using hwithin
  · rw [outputsOf_map_of_ne hr, List.append_nil]
    simpa [Function.update_of_ne (Ne.symm hr)] using h.within r

/-- **A run.** -/
theorem Safe.run (hlimit : Unrounded cfg.pool.budget) {s₀ : Parties String Pool Region}
    {log₀ : List (String × Event)} (h : Safe cfg s₀ log₀)
    (hrun : (fleet cfg).Run (InStep cfg) s₀ log s) :
    Safe cfg s (log₀ ++ log) := by
  refine Run.invariant (I := fun s log => Safe cfg s (log₀ ++ log)) (by simpa using h) ?_ hrun
  intro s log a s' new hsafe hin hstep
  rw [← List.append_assoc]
  exact hsafe.step hlimit hin hstep

/-- A region pays for what it admits in a window with what it leased in it. -/
def posting : Event → List (Posting ℚ ℚ)
  | .leased window amount => [.credit window amount]
  | .decided window cost d => if d.allowed then [.debit window cost] else []
  | .threw _ => []

omit [Rounding] in
theorem credited_posting (t : ℚ) (log : List Event) :
    credited (fun t' => t' = t) (ledger posting log) = leasedIn t log := by
  refine credited_ledger_eq_sum (fun e => ?_) log
  cases e with
  | decided window cost d => cases hd : d.allowed <;> simp [posting, creditOf, leaseOf, hd]
  | _ => simp [posting, creditOf, leaseOf]

omit [Rounding] in
theorem debited_posting (t : ℚ) (log : List Event) :
    debited (fun t' => t' = t) (ledger posting log) = admittedIn t log := by
  refine debited_ledger_eq_sum (fun e => ?_) log
  cases e with
  | decided window cost d => cases hd : d.allowed <;> simp [posting, debitOf, admitOf, hd]
  | _ => simp [posting, debitOf, admitOf]

/-- The regions together admit in a window no more than they leased in it. -/
theorem Safe.admitted_le (h : Safe cfg s log) (t : ℚ) :
    admittedIn t (log.map Prod.snd) ≤ leasedIn t (log.map Prod.snd) := by
  have hsolvent : ∀ r k, 0 ≤ balance (ledger posting (outputsOf r log)) k := by
    intro r k
    rw [balance, credited_posting, debited_posting]
    exact sub_nonneg.mpr ((h.within r).le k)
  have hle := debited_le_of_forall_party hsolvent fun k => k.2 = t
  rwa [credited_partyLedger _ fun k => k = t, debited_partyLedger _ fun k => k = t,
    credited_posting, debited_posting] at hle

/-- From `s` to `s'` no grant shrinks within a window, in the pool or in a region. -/
def NoShrink (s s' : Parties String Pool Region) : Prop :=
  (∀ p ∈ s.shared.window, ∀ p' ∈ s'.shared.window, p'.windowStart = p.windowStart →
    ∀ r, p.grantedTo r ≤ p'.grantedTo r) ∧
  ∀ r, ∀ w ∈ s.party r, ∀ w' ∈ s'.party r, w'.windowStart = w.windowStart →
    w.regionBudget ≤ w'.regionBudget

omit [Rounding] in
theorem leasedIn_le_append (h : ∀ x ∈ log ++ new, ∀ t, 0 ≤ leaseOf t x.2) (r : String) (t : ℚ) :
    leasedIn t (outputsOf r log) ≤ leasedIn t (outputsOf r (log ++ new)) := by
  rw [outputsOf_append, leasedIn_append, le_add_iff_nonneg_right]
  refine List.sum_nonneg fun y hy => ?_
  obtain ⟨e, he, rfl⟩ := List.mem_map.mp hy
  obtain ⟨x, hx, hout⟩ := List.mem_filterMap.mp he
  split at hout
  · obtain rfl := Option.some.inj hout
    exact h x (List.mem_append_right _ hx) t
  · cases hout

/-- Grants are sums of what they were raised by. -/
theorem Safe.noShrink (h : Safe cfg s log) (h' : Safe cfg s' (log ++ new)) : NoShrink s s' := by
  refine ⟨fun p hp p' hp' hsame r => ?_, fun r w hw w' hw' hsame => ?_⟩
  · rw [← h.pooled.granted p hp, ← h'.pooled.granted p' hp', hsame]
    exact leasedIn_le_append h'.pooled.raised r _
  · rw [(h.within r).budget w hw, (h'.within r).budget w' hw', hsame]
    exact leasedIn_le_append h'.pooled.raised r _

/-- **Regions around one pool stay within its budget**, for any regions, tenants, weights and costs,
any order of checks, evictions and rolls, as long as a check that asks the pool finds it in the
window of its region and loses nothing of what is counted: what all regions admit in a window costs
at most the budget; the grants of the pool add up to no more than it; a region admits no more in its
window than it was granted; and no grant shrinks within a window. -/
theorem federated_admitted_le_limit (cfg : Config) (hlimit : Unrounded cfg.pool.budget) {clock : ℚ}
    (hrun : (fleet cfg).Run (InStep cfg) (start clock) log s) :
    (∀ t, admittedIn t (log.map Prod.snd) ≤ cfg.pool.budget) ∧
    (∀ p ∈ s.shared.window, p.total ≤ cfg.pool.budget) ∧
    (∀ r, ∀ w ∈ s.party r, admittedIn w.windowStart (outputsOf r log) ≤ w.regionBudget) ∧
    ∀ log' s', (fleet cfg).Run (InStep cfg) s log' s' → NoShrink s s' := by
  have hsafe : Safe cfg s log := by simpa using (Safe.start clock).run hlimit hrun
  refine ⟨fun t => ?_, fun p hp => ?_, fun r w hw => ?_, fun log' s' hrun' => ?_⟩
  · exact (hsafe.admitted_le t).trans (hsafe.pooled.le_budget t)
  · rw [← hsafe.pooled.total p hp]
    exact hsafe.pooled.le_budget _
  · rw [(hsafe.within r).budget w hw]
    exact (hsafe.within r).le _
  · exact hsafe.noShrink (hsafe.run hlimit hrun')

end Fleet

/-! ### A clock that does not go back -/

section Clock

variable [Rounding] {pool : Pool} {party : Region} {s s' : Parties String Pool Region}
  {log new : List (String × Event)} {a : String × Check} {now : ℚ}

/-- Pool and region, asked at `now`, roll to its window. -/
structure Abreast (o : PoolOptions) (pool : Pool) (s : Region) (now : ℚ) : Prop where
  inside : Inside o.windowMs now
  pool : ∀ p ∈ pool.window, Meets o.windowMs p.windowStart now
  region : ∀ w ∈ s, Meets o.windowMs w.windowStart now

namespace Abreast

variable (h : Abreast o pool party now)
include h

theorem rollWindow_windowStart : (pool.rollWindow o now).windowStart = startOf o.windowMs now := by
  rw [Pool.rollWindow]
  cases hwindow : pool.window with
  | none => rfl
  | some p =>
    have hmeets := h.pool p hwindow
    rw [Meets] at hmeets
    dsimp only
    split_ifs at hmeets ⊢
    · rfl
    · exact hmeets

theorem pool_rollsOn : pool.RollsOn o now := by
  intro p hp hended
  have hmeets := h.pool p hp
  rwa [Meets, if_pos hended] at hmeets

theorem region_rollsOn : Region.RollsOn o party now := by
  intro w hw hended
  have hmeets := h.region w hw
  rwa [Meets, if_pos hended] at hmeets

theorem rollRegion_windowStart : (rollRegion o party now).windowStart = startOf o.windowMs now := by
  unfold rollRegion
  cases hparty : party with
  | none => rfl
  | some w =>
    have hmeets := h.region w hparty
    rw [Meets] at hmeets
    dsimp only
    split_ifs at hmeets ⊢
    · rfl
    · exact hmeets

theorem stays : now < fl ((pool.rollWindow o now).windowStart + o.windowMs) := by
  rw [h.rollWindow_windowStart]
  exact h.inside

end Abreast

/-- A window that starts at the window of `now` is abreast of it. -/
theorem Abreast.of_windowStart {p : PoolWindow} (h : Abreast o pool party now)
    (hstart : p.windowStart = startOf o.windowMs now) (clock : ℚ) :
    Abreast o ⟨some p, clock⟩ party now := by
  refine ⟨h.inside, ?_, h.region⟩
  rintro _ ⟨⟩
  rw [Meets, hstart]
  exact (if_neg (not_le.mpr h.inside)).mpr rfl

theorem Abreast.granted {region : String} {p : PoolWindow} {weight want granted : ℚ}
    (h : Abreast o pool party now)
    (hg : Granted o (pool.rollWindow o now) p region weight want granted) (clock : ℚ) :
    Abreast o ⟨some p, clock⟩ party now :=
  h.of_windowStart (hg.windowStart.trans h.rollWindow_windowStart) clock

/-- Which windows a loop leaves the pool in. -/
theorem Abreast.ensureRegionBudget {k : Asker} (h : Abreast o pool party k.now) (region : String)
    (agg : Totals) (iters : ℕ) (w : RegionWindow) :
    Abreast o (ensureRegionBudget o region k agg iters pool w).pool party k.now ∧
      ∀ p ∈ (FederatedFairEscrow.ensureRegionBudget o region k agg iters pool w).pool.window,
        p ∈ pool.window ∨ p.windowStart = startOf o.windowMs k.now := by
  refine ensureRegionBudget_pool (I := fun q => Abreast o q party k.now ∧
    ∀ p ∈ q.window, p ∈ pool.window ∨ p.windowStart = startOf o.windowMs k.now) ?_ iters pool w
    ⟨h, fun p hp => .inl hp⟩
  rintro q want p granted ⟨hq, -⟩ hgrant
  have hg := granted_of_grant hgrant
  refine ⟨hq.granted hg q.clock, ?_⟩
  rintro _ ⟨⟩
  exact .inr (hg.windowStart.trans hq.rollWindow_windowStart)

theorem Abreast.inWindow {region : String} {c : Check} (h : Abreast cfg.pool pool party c.now) :
    InWindow cfg region pool party c := by
  obtain ⟨hstart, -⟩ := arrive_spec cfg region party c
  refine ⟨h.region_rollsOn, fun _ => ⟨?_, h.pool_rollsOn, h.stays⟩⟩
  rw [h.rollWindow_windowStart, hstart, h.rollRegion_windowStart]

/-- A window start that is the start of an instant up to `now`, in a window of whole numbers. -/
def Reached (o : PoolOptions) (now start : ℚ) : Prop :=
  ∃ t ≤ now, WholeAt o.windowMs t ∧ start = startOf o.windowMs t

theorem Reached.mono {now' start : ℚ} (h : Reached o now start) (hle : now ≤ now') :
    Reached o now' start := by
  obtain ⟨t, ht, hstart⟩ := h
  exact ⟨t, ht.trans hle, hstart⟩

theorem Reached.meets {start : ℚ} (h : Reached o now start) (hwhole : WholeAt o.windowMs now) :
    Meets o.windowMs start now := by
  obtain ⟨t, ht, ht', rfl⟩ := h
  exact ht'.meets o.windowMs_pos hwhole ht

/-- The windows of the pool and of the regions are of instants that the clock has shown. -/
structure OnTime (cfg : Config) (s : Parties String Pool Region) : Prop where
  pool : ∀ p ∈ s.shared.window, Reached cfg.pool s.shared.clock p.windowStart
  party : ∀ r, ∀ w ∈ s.party r, Reached cfg.pool s.shared.clock w.windowStart

theorem OnTime.start (cfg : Config) (clock : ℚ) :
    OnTime cfg (FederatedFairEscrow.start clock) where
  pool _ h := by cases h
  party _ _ h := by cases h

/-- The clock does not go back, and windows are of whole numbers. -/
def Forward (cfg : Config) (s : Parties String Pool Region) (a : String × Check) : Prop :=
  s.shared.clock ≤ a.2.now ∧ WholeAt cfg.pool.windowMs a.2.now

theorem OnTime.abreast (h : OnTime cfg s) (hforward : Forward cfg s a) :
    Abreast cfg.pool s.shared (s.party a.1) a.2.now where
  inside := hforward.2.inside cfg.pool.windowMs_pos
  pool p hp := ((h.pool p hp).mono hforward.1).meets hforward.2
  region w hw := ((h.party a.1 w hw).mono hforward.1).meets hforward.2

/-- Which windows a check leaves, if it does not throw on its arguments. -/
theorem checkSync_frame (cfg : Config) (region : String) {c : Check}
    (h : Abreast cfg.pool pool party c.now) :
    (checkSync cfg region pool party c).1 = pool ∧
      (checkSync cfg region pool party c).2.1 = party ∨
    (checkSync cfg region pool party c).1.clock = c.now ∧
      (∀ p ∈ (checkSync cfg region pool party c).1.window,
        p ∈ pool.window ∨ p.windowStart = startOf cfg.pool.windowMs c.now) ∧
      ∀ w ∈ (checkSync cfg region pool party c).2.1,
        w.windowStart = startOf cfg.pool.windowMs c.now := by
  unfold checkSync
  cases hvalid : validateInputs c with
  | error e => exact .inl ⟨rfl, rfl⟩
  | ok =>
    obtain ⟨hstart, -, -, -, hnow⟩ := arrive_spec cfg region party c
    rw [h.rollRegion_windowStart] at hstart
    generalize arrive cfg region party c = arrived at hstart hnow ⊢
    obtain ⟨w, k⟩ := arrived
    dsimp only at hstart hnow ⊢
    obtain ⟨hwindow, -, -, hclock⟩ := ensureRegionBudget_frame cfg.pool region k w.aggregate
      maxLeaseIters { pool with clock := c.now } w
    have habreast : Abreast cfg.pool { pool with clock := c.now } party k.now := by
      rw [hnow]
      exact ⟨h.inside, h.pool, h.region⟩
    have hpool := (habreast.ensureRegionBudget region w.aggregate maxLeaseIters w).2
    rw [hnow] at hpool
    generalize ensureRegionBudget cfg.pool region k w.aggregate maxLeaseIters
      { pool with clock := c.now } w = leased at hwindow hclock hpool ⊢
    refine .inr ?_
    cases leased.error with
    | some e =>
      refine ⟨hclock, hpool, ?_⟩
      rintro _ ⟨⟩
      rw [hwindow, hstart]
    | none =>
      refine ⟨hclock, hpool, ?_⟩
      rintro _ ⟨⟩
      rw [← hstart, ← hwindow]
      split <;> rfl

theorem OnTime.update {region : String} {pool' : Pool} {party' : Region} (h : OnTime cfg s)
    (hclock : s.shared.clock ≤ pool'.clock)
    (hpool : ∀ p ∈ pool'.window, p ∈ s.shared.window ∨ Reached cfg.pool pool'.clock p.windowStart)
    (hparty : ∀ w ∈ party', Reached cfg.pool pool'.clock w.windowStart) :
    OnTime cfg ⟨pool', Function.update s.party region party'⟩ := by
  refine ⟨fun p hp => ?_, fun r w hw => ?_⟩
  · exact (hpool p hp).elim (fun hold => (h.pool p hold).mono hclock) id
  · by_cases hr : r = region
    · subst hr
      exact hparty w (by simpa using hw)
    · exact (h.party r w (by simpa [Function.update_of_ne hr] using hw)).mono hclock

theorem OnTime.checkSync {region : String} {c : Check} (h : OnTime cfg s)
    (hforward : Forward cfg s (region, c)) :
    OnTime cfg ⟨(checkSync cfg region s.shared (s.party region) c).1, Function.update s.party region
      (FederatedFairEscrow.checkSync cfg region s.shared (s.party region) c).2.1⟩ := by
  rcases checkSync_frame cfg region (h.abreast hforward) with
    ⟨hpool, hparty⟩ | ⟨hclock, hpool, hparty⟩
  · rw [hpool, hparty, Function.update_eq_self]
    exact h
  · have hnow : Reached cfg.pool
        (FederatedFairEscrow.checkSync cfg region s.shared (s.party region) c).1.clock
        (startOf cfg.pool.windowMs c.now) := ⟨c.now, hclock.ge, hforward.2, rfl⟩
    refine h.update (hclock ▸ hforward.1) (fun p hp => ?_) fun w hw => (hparty w hw) ▸ hnow
    rcases hpool p hp with hold | hstart
    · exact .inl hold
    · exact .inr (hstart ▸ hnow)

theorem OnTime.step (h : OnTime cfg s) (hforward : Forward cfg s a)
    (hstep : fleet cfg s a = some (s', new)) : OnTime cfg s' := by
  obtain ⟨pool', party', l, hcheck, rfl, -⟩ := machine_eq_some hstep
  have hnext := h.checkSync hforward
  rwa [Option.some.inj hcheck] at hnext

/-- **On a clock that does not go back**, with windows of whole numbers, a check that asks the pool
finds it in the window of its region. -/
theorem inStep_of_forward {clock : ℚ} (hrun : (fleet cfg).Run (fun s a => Forward cfg s a ∧
      Counted cfg a.1 s.shared (s.party a.1) a.2) (start clock) log s) :
    (fleet cfg).Run (InStep cfg) (start clock) log s := by
  have hboth : OnTime cfg s ∧ (fleet cfg).Run (InStep cfg) (start clock) log s := by
    induction hrun with
    | nil => exact ⟨.start cfg clock, .nil⟩
    | snoc _ hok hstep ih =>
      exact ⟨ih.1.step hok.1 hstep,
        ih.2.snoc (fun _ => ⟨(ih.1.abreast hok.1).inWindow, hok.2⟩) hstep⟩
  exact hboth.2

end Clock

/-! ### The condition is needed -/

/-- Two units a second, and room for one tenant in each region. -/
def pairASecond : Config := ⟨⟨2, 1000, pair_pos, second_pos⟩, fun _ => some 1⟩

/-- Two regions and a roll; the first tenant of a region is evicted for the second. -/
def twoRegions : List (String × Check) :=
  [("us", ⟨"A", 1, 1, 0⟩), ("us", ⟨"B", 1, 1, 10⟩), ("eu", ⟨"C", 1, 2, 20⟩),
    ("us", ⟨"A", 1, 1, 30⟩), ("us", ⟨"A", 2, 1, 1000⟩), ("eu", ⟨"C", 1, 1, 1010⟩)]

theorem federated_admitted_le_limit_two_regions :
    admittedIn 0 (((@fleet doubles pairASecond).exec (start 0) twoRegions).get (by decide +kernel)
      |>.2.map Prod.snd) ≤ 2 :=
  (@federated_admitted_le_limit doubles _ _ pairASecond (by decide +kernel) 0
    (run_of_isSome (by decide +kernel) (by decide +kernel))).1 0

/-- The clock steps back by half a second after a window has opened, and a region has its first
check then. -/
def clockStepsBack : List (String × Check) :=
  [("us", ⟨"A", 2, 1, 0⟩), ("eu", ⟨"B", 1, 1, 1000⟩), ("ap", ⟨"C", 1, 1, 500⟩)]

/-- **A region that comes late to a window exceeds the budget.** Three units are admitted in the
first window, of which the budget is two. -/
theorem late_region_exceeds_limit :
    ¬ ∀ (cfg : Config) (clock : ℚ) (log : List (String × Event)) (s : Parties String Pool Region),
      (@fleet doubles cfg).Run (fun _ _ => True) (start clock) log s →
        ∀ t, admittedIn t (log.map Prod.snd) ≤ cfg.pool.budget := by
  intro h
  have hrun := run_of_isSome (m := @fleet doubles pairASecond) (p := fun _ _ => True) (s := start 0)
    (l := clockStepsBack) (by decide +kernel) (by decide +kernel)
  exact absurd (h _ _ _ _ hrun 0) (by decide +kernel)

end ThrottleKit.FederatedFairEscrow
