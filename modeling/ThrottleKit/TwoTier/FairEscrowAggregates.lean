import ThrottleKit.TwoTier.FairEscrowMoves

/-!
# The running totals of a weighted fair escrow

`aggWeight` and `aggUsed` stand for sums over the map of active tenants. Each operation that changes
the map or one of its entries adjusts them, and so does a check that resumes from a granted lease.
That check holds the entry it was given when it entered, which in the meantime may have left the
map: its cost is then added to `aggUsed` and to no tenant of the map, and with nobody active the
total weight it divides by is zero (`detached_check_unbalances`). By doubles the totals are sums as
long as no adjustment is rounded: costs of 0.7 and 0.1 that come and go leave them below zero.

## Main definitions

* `Sound` — the totals are those of the map, whose entries are distinct and well formed
* `SumsStep` — the condition on a step

## Main results

* `Sound.move` — every move keeps the totals
* `aggregates_eq_sums` — the totals over a run
-/

namespace ThrottleKit.FairEscrow

open Machine Rounding

variable {b : Budget}

/-- The running totals are the sums over the map. No two tenants share an entry, and every entry has
a positive weight and a used amount that is not negative. -/
structure Sound (s : Process) : Prop where
  aggWeight : s.aggWeight = s.weightInMap
  aggUsed : s.aggUsed = s.usedInMap
  weight_pos : ∀ tenant ref, s.tenants.lookup tenant = some ref → 0 < (s.heap ref).weight
  used_nonneg : ∀ tenant ref, s.tenants.lookup tenant = some ref → 0 ≤ (s.heap ref).used
  allocated : ∀ tenant ref, s.tenants.lookup tenant = some ref → ref < s.allocated
  distinct : ∀ tenant tenant' ref, s.tenants.lookup tenant = some ref →
    s.tenants.lookup tenant' = some ref → tenant' = tenant

section Operations

variable {s : Process} {tenant : String} {ref : ℕ}

theorem Sound.aggWeight_nonneg (h : Sound s) : 0 ≤ s.aggWeight := by
  rw [h.aggWeight, Process.weightInMap]
  exact OrderedMap.sum_nonneg fun tenant ref hlookup => (h.weight_pos tenant ref hlookup).le

theorem Sound.aggUsed_nonneg (h : Sound s) : 0 ≤ s.aggUsed := by
  rw [h.aggUsed, Process.usedInMap]
  exact OrderedMap.sum_nonneg h.used_nonneg

/-- With a tenant in the map, the divisor is positive. -/
theorem Sound.aggWeight_pos (h : Sound s) (hlookup : s.tenants.lookup tenant = some ref) :
    0 < s.aggWeight := by
  have hrest : 0 ≤ (s.tenants.erase tenant).sum fun _ ref => (s.heap ref).weight := by
    refine OrderedMap.sum_nonneg fun tenant' ref' hlookup' => ?_
    rw [OrderedMap.lookup_erase] at hlookup'
    split at hlookup'
    · cases hlookup'
    · exact (h.weight_pos tenant' ref' hlookup').le
  rw [h.aggWeight, Process.weightInMap, OrderedMap.sum_eq_add_sum_erase _ hlookup]
  exact add_pos_of_pos_of_nonneg (h.weight_pos tenant ref hlookup) hrest

theorem Sound.empty (heap : ℕ → TenantEntry) (windowStart : WithBot ℚ) (lEffective clock : ℚ)
    (allocated : ℕ) (calls : OrderedMap ℕ Call) :
    Sound ⟨windowStart, lEffective, .empty, 0, 0, false, heap, allocated, calls, clock⟩ where
  aggWeight := rfl
  aggUsed := rfl
  weight_pos := by rintro tenant ref ⟨⟩
  used_nonneg := by rintro tenant ref ⟨⟩
  allocated := by rintro tenant ref ⟨⟩
  distinct := by rintro tenant tenant' ref ⟨⟩

/-- Writing to an entry of the map, with both totals adjusted. -/
theorem Sound.write (h : Sound s) (hlookup : s.tenants.lookup tenant = some ref) {e : TenantEntry}
    (hweight : 0 < e.weight) (hused : 0 ≤ e.used) {s' : Process}
    (hheap : s'.heap = Function.update s.heap ref e) (htenants : s'.tenants = s.tenants)
    (hallocated : s'.allocated = s.allocated)
    (haggWeight : s'.aggWeight = s.aggWeight + (e.weight - (s.heap ref).weight))
    (haggUsed : s'.aggUsed = s.aggUsed + (e.used - (s.heap ref).used)) : Sound s' := by
  have hinj : ∀ tenant', s.tenants.lookup tenant' = some ref → tenant' = tenant :=
    fun tenant' => h.distinct tenant tenant' ref hlookup
  have hcell : ∀ f : TenantEntry → ℚ,
      s.tenants.sum (fun _ ref' => f (Function.update s.heap ref e ref'))
        = s.tenants.sum (fun _ ref' => f (s.heap ref')) + (f e - f (s.heap ref)) := by
    intro f
    have hsum := OrderedMap.sum_update_of_lookup hlookup hinj (f ∘ s.heap) (f e)
    rw [← Function.comp_update] at hsum
    exact hsum
  constructor
  · rw [Process.weightInMap, htenants, hheap, hcell TenantEntry.weight, haggWeight, h.aggWeight,
      Process.weightInMap]
  · rw [Process.usedInMap, htenants, hheap, hcell TenantEntry.used, haggUsed, h.aggUsed,
      Process.usedInMap]
  · intro tenant' ref' hlookup'
    rw [htenants] at hlookup'
    rw [hheap, Function.update_apply]
    split
    · exact hweight
    · exact h.weight_pos tenant' ref' hlookup'
  · intro tenant' ref' hlookup'
    rw [htenants] at hlookup'
    rw [hheap, Function.update_apply]
    split
    · exact hused
    · exact h.used_nonneg tenant' ref' hlookup'
  · rw [htenants, hallocated]
    exact h.allocated
  · rw [htenants]
    exact h.distinct

variable [Rounding]

/-- Whichever way `aggregate` takes, it returns the running totals, if no partial sum is rounded. -/
theorem Sound.aggregate (h : Sound s) (hplain : PlainTotals s) :
    s.aggregate = ⟨s.aggWeight, s.aggUsed⟩ := by
  unfold Process.aggregate
  split
  · rename_i hfractional
    obtain ⟨hweights, huseds⟩ := hplain hfractional
    rw [sumOf_eq_sum hweights, sumOf_eq_sum huseds, h.aggWeight, h.aggUsed]
    rfl
  · rfl

theorem Sound.setWeight (h : Sound s) (hlookup : s.tenants.lookup tenant = some ref) {w : ℚ}
    (hw : 0 < w) (hplain : PlainWeigh s ref w) : Sound (s.setWeight ref w) := by
  refine h.write hlookup (e := { s.heap ref with weight := w }) hw
    (h.used_nonneg tenant ref hlookup) rfl rfl rfl ?_ (by simp [Process.setWeight])
  show fl (s.aggWeight + fl (w - (s.heap ref).weight)) = _
  rw [(hplain.1 : fl _ = _), (hplain.2 : fl _ = _)]

theorem Sound.applyUsed (h : Sound s) (hlookup : s.tenants.lookup tenant = some ref) {cost : ℚ}
    (hcost : 0 < cost) (hused : Unrounded ((s.heap ref).used + cost))
    (htotal : Unrounded (s.aggUsed + cost)) : Sound (s.applyUsed ref cost) := by
  have hnonneg := add_nonneg (h.used_nonneg tenant ref hlookup) hcost.le
  refine h.write hlookup (e := { s.heap ref with used := (s.heap ref).used + cost })
    (h.weight_pos tenant ref hlookup) hnonneg ?_ rfl rfl (by simp [Process.applyUsed]) ?_
  · show Function.update s.heap ref { s.heap ref with used := fl ((s.heap ref).used + cost) } = _
    rw [(hused : fl _ = _)]
  · show fl (s.aggUsed + cost) = _
    rw [(htotal : fl _ = _), add_sub_cancel_left]

theorem Sound.deleteTenant (h : Sound s) (tenant : String)
    (hplain : ∀ ref ∈ s.tenants.lookup tenant, PlainDelete s ref) :
    Sound (s.deleteTenant tenant) := by
  cases hlookup : s.tenants.lookup tenant with
  | none => simpa [Process.deleteTenant, hlookup] using h
  | some ref =>
    have hback : ∀ tenant' ref', (s.tenants.erase tenant).lookup tenant' = some ref' →
        s.tenants.lookup tenant' = some ref' := by
      intro tenant' ref' hlookup'
      rw [OrderedMap.lookup_erase] at hlookup'
      split at hlookup'
      · cases hlookup'
      · exact hlookup'
    obtain ⟨hweight, hused⟩ := hplain ref hlookup
    rw [Process.deleteTenant_of_lookup hlookup, (hweight : fl _ = _), (hused : fl _ = _)]
    constructor
    · show s.aggWeight - (s.heap ref).weight = (s.tenants.erase tenant).sum _
      rw [h.aggWeight, Process.weightInMap, OrderedMap.sum_eq_add_sum_erase _ hlookup]
      exact add_sub_cancel_left _ _
    · show s.aggUsed - (s.heap ref).used = (s.tenants.erase tenant).sum _
      rw [h.aggUsed, Process.usedInMap, OrderedMap.sum_eq_add_sum_erase _ hlookup]
      exact add_sub_cancel_left _ _
    · exact fun tenant' ref' hl => h.weight_pos tenant' ref' (hback _ _ hl)
    · exact fun tenant' ref' hl => h.used_nonneg tenant' ref' (hback _ _ hl)
    · exact fun tenant' ref' hl => h.allocated tenant' ref' (hback _ _ hl)
    · exact fun t t' ref' hl hl' => h.distinct t t' ref' (hback _ _ hl) (hback _ _ hl')

/-- A new entry is one the map does not refer to. -/
theorem Sound.addTenant (h : Sound s) (hnone : s.tenants.lookup tenant = none) {w : ℚ}
    (hw : 0 < w) (hplain : Unrounded (s.aggWeight + w)) : Sound (s.addTenant tenant w) := by
  have hunused : ∀ tenant', s.tenants.lookup tenant' ≠ some s.allocated :=
    fun tenant' hl => absurd (h.allocated tenant' _ hl) (lt_irrefl _)
  have hcell : ∀ f : TenantEntry → ℚ,
      (s.tenants.set tenant s.allocated).sum
          (fun _ ref => f (Function.update s.heap s.allocated ⟨w, 0⟩ ref))
        = s.tenants.sum (fun _ ref => f (s.heap ref)) + f ⟨w, 0⟩ := by
    intro f
    have hsum := OrderedMap.sum_update_of_forall_ne hunused (f ∘ s.heap) (f ⟨w, 0⟩)
    rw [← Function.comp_update] at hsum
    rw [OrderedMap.sum_set, OrderedMap.sum_erase_of_lookup_eq_none _ hnone, Function.update_self,
      add_comm]
    exact congrArg (· + f ⟨w, 0⟩) hsum
  have hentry : ∀ tenant' ref, (s.tenants.set tenant s.allocated).lookup tenant' = some ref →
      (tenant' = tenant ∧ ref = s.allocated) ∨
        (s.tenants.lookup tenant' = some ref ∧ ref ≠ s.allocated) := by
    intro tenant' ref hl
    rw [OrderedMap.lookup_set] at hl
    split at hl
    · rename_i heq
      exact .inl ⟨heq.symm, (Option.some.inj hl).symm⟩
    · exact .inr ⟨hl, fun heq => hunused tenant' (heq ▸ hl)⟩
  constructor
  · have hsum := hcell TenantEntry.weight
    rw [← Process.weightInMap, ← h.aggWeight] at hsum
    exact (hplain : fl _ = _).trans hsum.symm
  · have hsum := hcell TenantEntry.used
    rw [← Process.usedInMap, ← h.aggUsed, add_zero] at hsum
    exact hsum.symm
  · intro tenant' ref hl
    show 0 < (Function.update s.heap s.allocated ⟨w, 0⟩ ref).weight
    rcases hentry tenant' ref hl with ⟨-, rfl⟩ | ⟨hold, hne⟩
    · rwa [Function.update_self]
    · rw [Function.update_of_ne hne]
      exact h.weight_pos tenant' ref hold
  · intro tenant' ref hl
    show 0 ≤ (Function.update s.heap s.allocated ⟨w, 0⟩ ref).used
    rcases hentry tenant' ref hl with ⟨-, rfl⟩ | ⟨hold, hne⟩
    · rw [Function.update_self]
    · rw [Function.update_of_ne hne]
      exact h.used_nonneg tenant' ref hold
  · intro tenant' ref hl
    show ref < s.allocated + 1
    rcases hentry tenant' ref hl with ⟨-, rfl⟩ | ⟨hold, -⟩
    · omega
    · have := h.allocated tenant' ref hold
      omega
  · intro t t' ref hl hl'
    rcases hentry t ref hl with ⟨rfl, rfl⟩ | ⟨hold, hne⟩
    · rcases hentry t' _ hl' with ⟨rfl, -⟩ | ⟨-, hne'⟩
      · rfl
      · exact absurd rfl hne'
    · rcases hentry t' ref hl' with ⟨-, rfl⟩ | ⟨hold', -⟩
      · exact absurd rfl hne
      · exact h.distinct t t' ref hold hold'

end Operations

section Moves

variable [Rounding] {cfg : Config b} {x : Lapses} {s s' : Process} {evs : List Event}

/-- No check is admitted past what the effective limit leaves. -/
theorem cost_le_of_verdict {k : Check} (h : (s.verdict b k).allowed = true) :
    k.cost ≤ fl (s.lEffective - s.aggregate.totalUsed) := by
  by_contra hcon
  have hshort : fl (s.lEffective - s.aggregate.totalUsed) < k.cost := not_le.mp hcon
  unfold Process.verdict at h
  simp only [hshort, if_true] at h
  split at h <;> cases h

/-- An admission is charged to the entry the check holds. -/
theorem decide_cases (s : Process) (k : Check) :
    ((s.verdict b k).allowed = true ∧ (s.decide b k).1 = s.applyUsed k.entry k.cost) ∨
      ((s.verdict b k).allowed = false ∧ (s.decide b k).1 = s) := by
  cases hallowed : (s.verdict b k).allowed with
  | true => exact .inl ⟨rfl, by simp [Process.decide, hallowed]⟩
  | false => exact .inr ⟨rfl, by simp [Process.decide, hallowed]⟩

/-- Every move keeps the totals, as long as no check decides on an entry that left the map and no
total is rounded. -/
theorem Sound.move (h : Sound s) (hdetached : ¬ x.detached) (hrounds : ¬ x.rounds)
    (hmove : Move cfg x s evs s') : Sound s' := by
  cases hmove with
  | stay now hcuts => exact { h with }
  | roll now hcuts => exact .empty _ _ _ _ _ _
  | weigh tenant ref w hlookup hw hplain =>
    exact h.setWeight hlookup hw (hplain.resolve_right hrounds)
  | evict tenant ref hlookup hused hheld hplain =>
    refine h.deleteTenant tenant fun ref' hlookup' => ?_
    obtain rfl := Option.some.inj (hlookup.symm.trans hlookup')
    exact hplain.resolve_right hrounds
  | create tenant w hnone hw hplain => exact h.addTenant hnone hw (hplain.resolve_right hrounds)
  | decide id k horigin hplain =>
    have hlookup : s.tenants.lookup k.tenant = some k.entry := by
      rcases horigin with ⟨hlookup, -⟩ | ⟨hlookup, -⟩
      · exact hlookup
      · exact hlookup.resolve_right hdetached
    have hdecide : Sound (s.decide b k).1 := by
      rcases decide_cases s k with ⟨hallowed, heq⟩ | ⟨-, heq⟩
      · obtain ⟨-, hused, htotal⟩ :=
          (hplain.resolve_right hrounds).2 (cost_le_of_verdict hallowed)
        rw [heq]
        exact h.applyUsed hlookup k.cost_pos hused htotal
      · rwa [heq]
    exact { hdecide with }
  | suspend id c hl2 horigin hfree hstage => exact { h with }
  | threw id e => exact h
  | serve id c leased hcall hstage => exact { h with }
  | lose id => exact { h with }
  | refuse id k d => exact { h with }
  | grow id c leased hcall hstage hallowed hlate hplain => exact { h with }
  | reset tenant hresets hplain =>
    cases tenant with
    | none => exact .empty _ _ _ _ _ _
    | some tenant => exact h.deleteTenant tenant (hplain.resolve_right hrounds tenant rfl)

/-- With its entry in the map, a check divides by a positive total weight. -/
theorem Sound.divisor_pos (h : Sound s) (hdetached : ¬ x.detached) (hrounds : ¬ x.rounds)
    (hmove : Move cfg x s evs s') {id : ℕ} {k : Check} {window : WithBot ℚ} {divisor : ℚ}
    {d : ShareDecision}
    (hev : .decided id k window divisor d ∈ evs) : 0 < divisor := by
  cases hmove with
  | decide id' k' horigin hplain =>
    obtain ⟨-, -, -, rfl, -⟩ := Event.decided.inj (List.mem_singleton.mp hev)
    rw [h.aggregate (hplain.resolve_right hrounds).1]
    rcases horigin with ⟨hlookup, -⟩ | ⟨hlookup, -⟩
    · exact h.aggWeight_pos hlookup
    · exact h.aggWeight_pos (hlookup.resolve_right hdetached)
  | serve id' c leased hcall hstage =>
    split at hev
    · cases List.mem_singleton.mp hev
    · cases hev
  | threw id' e => cases List.mem_singleton.mp hev
  | lose id' => cases List.mem_singleton.mp hev
  | refuse id' k' d' => cases List.mem_singleton.mp hev
  | _ => cases hev

end Moves

/-- A check that decides does so on an entry of the map, and no total is rounded. -/
def SumsStep [Rounding] {ι : Type} (cfg : ι → Config b) (s : Parties ι L2 Process) (a : ι × Act) :
    Prop :=
  decidesDetached b (s.party a.1) a.2 = false ∧ PlainStep (cfg a.1) (s.party a.1) a.2

instance SumsStep.decidable [Rounding] {ι : Type} (cfg : ι → Config b) (s : Parties ι L2 Process)
    (a : ι × Act) : Decidable (SumsStep cfg s a) :=
  inferInstanceAs (Decidable (_ ∧ _))

instance {ι : Type} (cfg : ι → Config b) (s : Parties ι L2 Process) (a : ι × Act) :
    Decidable (@SumsStep b doubles ι cfg s a) :=
  @SumsStep.decidable b doubles ι cfg s a

section Fleet

variable [Rounding] {ι : Type} [DecidableEq ι] {cfg : ι → Config b}

/-- **The running totals are those of the map.** In every run in which no check decides on an entry
that has left the map and no total is rounded, for any checks, leases, rolls, resets and evictions:
`aggWeight` and `aggUsed` are the sums over the tenants in the map and not negative, and every
decision divides by a positive total weight. -/
theorem aggregates_eq_sums {log : List (ι × Event)} {s : Parties ι L2 Process}
    (hrun : (fleet cfg).Run (SumsStep cfg) (start cfg) log s) (i : ι) :
    (s.party i).aggWeight = (s.party i).weightInMap ∧ (s.party i).aggUsed = (s.party i).usedInMap ∧
      0 ≤ (s.party i).aggWeight ∧ 0 ≤ (s.party i).aggUsed ∧
      ∀ id k window divisor d, .decided id k window divisor d ∈ Parties.outputsOf i log →
        0 < divisor := by
  have hinv : Sound (s.party i) ∧ ∀ id k window divisor d,
      .decided id k window divisor d ∈ Parties.outputsOf i log → 0 < divisor := by
    refine Parties.run_party (I := fun _ s log => Sound s ∧ ∀ id k window divisor d,
      .decided id k window divisor d ∈ log → 0 < divisor)
      (fun j => ⟨.empty _ _ _ _ _ _, by simp⟩) ?_ hrun i
    intro s j a store s' l log hinv hok hstep
    refine Chain.invariant (I := fun s log => Sound s ∧ ∀ id k window divisor d,
      .decided id k window divisor d ∈ log → 0 < divisor) ?_ (step_moves hstep) hinv
    rintro s log s' new ⟨hsound, hlog⟩ hmove
    have hdetached : ¬ (lapses (cfg j) _ a).detached := ne_true_of_eq_false hok.1
    have hrounds : ¬ (lapses (cfg j) _ a).rounds := not_not_intro hok.2
    refine ⟨hsound.move hdetached hrounds hmove, fun id k window divisor d hev => ?_⟩
    rcases List.mem_append.mp hev with hold | hnew
    · exact hlog id k window divisor d hold
    · exact hsound.divisor_pos hdetached hrounds hmove hnew
  exact ⟨hinv.1.aggWeight, hinv.1.aggUsed, hinv.1.aggWeight_nonneg, hinv.1.aggUsed_nonneg, hinv.2⟩

end Fleet

/-! ### The condition is needed -/

/-- Ten units a second. -/
def tenASecond : Budget := ⟨10, 1000, "tk:wfe:pool", by decide, second_pos⟩

/-- A process that leases in fives and keeps two tenants. -/
def leasesFives : Config tenASecond := ⟨some 2, some ⟨5, by decide, by decide⟩⟩

/-- Two tenants lease and decide, one is reset, and a third and a fourth evict the other. -/
def resetsAndEvicts : List (Unit × Act) :=
  [((), .check 0 "A" 1 2 0), ((), .check 1 "B" 2 1 10), ((), .serve 0), ((), .serve 1),
    ((), .resume 0), ((), .resume 1), ((), .reset (some "A")), ((), .check 0 "C" 1 3 20),
    ((), .check 1 "D" (1 / 2) 1 30)]

theorem aggregates_eq_sums_reset_evict :
    ((((@fleet doubles _ Unit _ fun _ => leasesFives).exec (@start _ Unit fun _ => leasesFives)
      resetsAndEvicts).get (by decide +kernel)).1.party ()).aggUsed =
    ((((@fleet doubles _ Unit _ fun _ => leasesFives).exec (@start _ Unit fun _ => leasesFives)
      resetsAndEvicts).get (by decide +kernel)).1.party ()).usedInMap :=
  (@aggregates_eq_sums _ doubles _ _ _ _ _
    (run_of_isSome (by decide +kernel) (by decide +kernel)) ()).2.1

/-- A tenant is reset while the lease of its check is on its way. -/
def resetInFlight : List (Unit × Act) :=
  [((), .check 0 "A" 1 1 0), ((), .serve 0), ((), .reset (some "A")), ((), .resume 0)]

/-- **A detached check unbalances the totals.** Nobody is active, and `aggUsed` is one. -/
theorem detached_check_unbalances :
    ¬ ∀ (log : List (Unit × Event)) (s : Parties Unit L2 Process),
      (@fleet doubles _ Unit _ fun _ => leasesFives).Run (fun _ _ => True)
          (start fun _ => leasesFives) log s →
        (s.party ()).aggWeight = (s.party ()).weightInMap ∧
          (s.party ()).aggUsed = (s.party ()).usedInMap ∧
          0 ≤ (s.party ()).aggWeight ∧ 0 ≤ (s.party ()).aggUsed ∧
          ∀ id k window divisor d, .decided id k window divisor d ∈ Parties.outputsOf () log →
            0 < divisor := by
  intro h
  have hrun := run_of_isSome (m := @fleet doubles _ Unit _ fun _ => leasesFives)
    (p := fun _ _ => True) (s := start fun _ => leasesFives) (l := resetInFlight)
    (by decide +kernel) (by decide +kernel)
  exact absurd (h _ _ hrun).2.1 (by decide +kernel)

end ThrottleKit.FairEscrow
