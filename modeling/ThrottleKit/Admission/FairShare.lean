import Mathlib.Algebra.BigOperators.Ring.List
import Mathlib.Data.List.Induction
import ThrottleKit.Core.Types
import ThrottleKit.Lib.Lockstep
import ThrottleKit.Lib.OrderedMap
import ThrottleKit.Lib.Rounding

/-!
# Fair shares of one budget

A budget per window is shared by the tenants that have been seen in the window: each may have its
part of it, the same for all or in proportion to its weight, rounded down. Since the parts shrink
when a tenant is seen for the first time, an earlier tenant may by then have more than its part; it
keeps it, and there may be nothing left for a later one.

The limiters are over any rounding of their arithmetic. What they keep is proved over rationals, and
holds of doubles for the checks whose numbers are not rounded.

## Main definitions

* `fairShare`, `weightedFairShare` — the two limiters
* `admitted`, `billed`, `billedTo` — what a run has admitted
* `Kept` — what is kept of the guarantee
* `PlainEqual`, `PlainWeighted` — the numbers of a check are not rounded

## Main results

* `shares_kept` — every window is within the budget, and when a tenant gets its part
* `share_is_starved` — a tenant that gets nothing of its part
-/

namespace ThrottleKit.Admission

open AlignedWindow Lockstep Rounding

/-! ### The limiters -/

/-- The options of `fairShare`. -/
structure FairShareOptions where
  limit : ℚ
  windowMs : ℚ
  limit_pos : 0 < limit
  windowMs_pos : 0 < windowMs

/-- The options of `weightedFairShare`. -/
structure WeightedFairShareOptions extends FairShareOptions where
  weightOf : String → ℚ

/-- `Math.floor(options.limit)`. -/
def FairShareOptions.budget (o : FairShareOptions) : ℤ := ⌊o.limit⌋

/-- A call of `checkSync`, and the clock when it runs. -/
structure Check where
  tenant : String
  cost : ℚ
  weight : Option ℚ
  now : ℚ

/-- A `RangeError` of `requirePositive(name, value)`. -/
structure NotPositive where
  name : String
  value : ℚ

/-- The message of the error. -/
def NotPositive.message (e : NotPositive) : String :=
  e.name ++ " must be a positive finite number, got " ++ toString e.value

/-- The state of `fairShare`. -/
structure Shares where
  /-- No window yet when `none`. -/
  windowStart : Option ℚ
  total : ℚ
  /-- The units admitted for each tenant that was seen in the window. -/
  used : OrderedMap String ℚ

/-- The state of `weightedFairShare`. -/
structure WeightedShares extends Shares where
  weights : OrderedMap String ℚ

/-- The state as constructed. -/
def Shares.start : Shares := ⟨none, 0, .empty⟩

@[inherit_doc Shares.start]
def WeightedShares.start : WeightedShares := ⟨.start, .empty⟩

section Limiters

variable [Rounding]

/-- Whether the window is over. -/
def Shares.Over (o : FairShareOptions) (s : Shares) (now : ℚ) : Prop :=
  ∀ windowStart ∈ s.windowStart, fl (windowStart + o.windowMs) ≤ now

instance (o : FairShareOptions) (s : Shares) (now : ℚ) : Decidable (s.Over o now) :=
  inferInstanceAs (Decidable (∀ windowStart ∈ s.windowStart, fl (windowStart + o.windowMs) ≤ now))

/-- `rollWindow(now)`. -/
def Shares.rollWindow (o : FairShareOptions) (s : Shares) (now : ℚ) : Shares :=
  if s.Over o now then ⟨some (startOf o.windowMs now), 0, .empty⟩ else s

@[inherit_doc Shares.rollWindow]
def WeightedShares.rollWindow (o : FairShareOptions) (s : WeightedShares) (now : ℚ) :
    WeightedShares :=
  if s.Over o now then ⟨s.toShares.rollWindow o now, .empty⟩ else s

/-- A tenant is seen. -/
def Shares.touch (s : Shares) (tenant : String) : Shares :=
  if s.used.lookup tenant = none then { s with used := s.used.set tenant 0 } else s

/-- What a check comes to, for a tenant that may have `fairCap` in all. -/
def Shares.settle (o : FairShareOptions) (s : Shares) (c : Check) (fairCap : ℤ) :
    Shares × Decision :=
  let resetAt : ℤ := ⌈fl (s.windowStart.getD 0 + o.windowMs)⌉
  let tenantUsed := (s.used.lookup c.tenant).getD 0
  if fl (s.total + c.cost) ≤ o.budget ∧ fl (tenantUsed + c.cost) ≤ fairCap then
    ({ s with used := s.used.set c.tenant (fl (tenantUsed + c.cost)),
              total := fl (s.total + c.cost) },
      ⟨true, fairCap, max 0 ⌊fl (fairCap - fl (tenantUsed + c.cost))⌋, resetAt, 0⟩)
  else (s, ⟨false, fairCap, max 0 ⌊fl (fairCap - tenantUsed)⌋, resetAt, ⌈fl (resetAt - c.now)⌉⟩)

/-- The state in which the part of a tenant is computed. -/
def Shares.seen (o : FairShareOptions) (s : Shares) (c : Check) : Shares :=
  (s.rollWindow o c.now).touch c.tenant

/-- `Math.floor(limit / used.size)`. -/
def Shares.equalShare (o : FairShareOptions) (s : Shares) : ℤ := ⌊fl (o.budget / s.used.size)⌋

/-- `checkSync` of `fairShare`. -/
def fairShare (o : FairShareOptions) : Service Shares Check (Except NotPositive Decision) :=
  fun s c =>
    if c.cost ≤ 0 then (s, .error ⟨"fairShare.cost", c.cost⟩)
    else
      let s := s.seen o c
      let r := s.settle o c (max 1 (s.equalShare o))
      (r.1, .ok r.2)

/-- The weight of a check. -/
def WeightedFairShareOptions.weight (o : WeightedFairShareOptions) (c : Check) : ℚ :=
  c.weight.getD (o.weightOf c.tenant)

@[inherit_doc Shares.seen]
def WeightedShares.seen (o : WeightedFairShareOptions) (s : WeightedShares) (c : Check) :
    WeightedShares :=
  let s := s.rollWindow o.toFairShareOptions c.now
  ⟨s.touch c.tenant, s.weights.set c.tenant (o.weight c)⟩

/-- `Math.floor((w * limit) / activeWeight)`. -/
def WeightedShares.weightedShare (o : WeightedFairShareOptions) (s : WeightedShares) (w : ℚ) : ℤ :=
  let activeWeight := sumOf (s.weights.entries.map Prod.snd)
  ⌊fl (fl (w * o.budget) / activeWeight)⌋

/-- `checkSync` of `weightedFairShare`. -/
def weightedFairShare (o : WeightedFairShareOptions) :
    Service WeightedShares Check (Except NotPositive Decision) :=
  fun s c =>
    if c.cost ≤ 0 then (s, .error ⟨"weightedFairShare.cost", c.cost⟩)
    else if o.weight c ≤ 0 then (s, .error ⟨"weightedFairShare.weight", o.weight c⟩)
    else
      let s := s.seen o c
      let r := s.settle o.toFairShareOptions c (max 1 (s.weightedShare o (o.weight c)))
      (⟨r.1, s.weights⟩, .ok r.2)

end Limiters

/-! ### Parts -/

/-- The same part of an amount for every tenant that was seen. -/
def Shares.share (s : Shares) (amount : ℚ) : ℤ := ⌊amount / s.used.size⌋

/-- The weight of the tenants that were seen. -/
def WeightedShares.activeWeight (s : WeightedShares) : ℚ := s.weights.sum fun _ weight => weight

/-- The part of an amount for a tenant, in proportion to its weight. -/
def WeightedShares.share (s : WeightedShares) (amount : ℚ) (tenant : String) : ℤ :=
  ⌊(s.weights.lookup tenant).getD 0 * amount / s.activeWeight⌋

/-! ### What a run admits -/

section Runs

variable {σ : Type*}

/-- Whether a check is allowed. -/
def allows (m : Service σ Check (Except NotPositive Decision)) (s : σ) (c : Check) : Bool :=
  (m s c).2.toOption.any fun d => d.allowed

/-- The checks that are allowed, in order. -/
def admitted (m : Service σ Check (Except NotPositive Decision)) : σ → List Check → List Check
  | _, [] => []
  | s, c :: cs => (if allows m s c then [c] else []) ++ admitted m (m s c).1 cs

theorem admitted_append (m : Service σ Check (Except NotPositive Decision)) (s : σ)
    (cs cs' : List Check) :
    admitted m s (cs ++ cs') = admitted m s cs ++ admitted m (after m s cs) cs' := by
  induction cs generalizing s with
  | nil => rfl
  | cons c cs ih =>
    rw [List.cons_append, admitted, ih, admitted, List.append_assoc]
    rfl

end Runs

/-- The units admitted in the window that starts at `start`. -/
def billed (o : FairShareOptions) (start : ℚ) (log : List Check) : ℚ :=
  ((log.filter fun c => alignedStart o.windowMs c.now = start).map Check.cost).sum

/-- The units admitted for a tenant in the window that starts at `start`. -/
def billedTo (o : FairShareOptions) (tenant : String) (start : ℚ) (log : List Check) : ℚ :=
  billed o start (log.filter fun c => c.tenant = tenant)

section Bills

variable {o : FairShareOptions} {start : ℚ} {log : List Check} {c : Check} {tenant : String}

theorem billed_concat : billed o start (log ++ [c])
    = billed o start log + if alignedStart o.windowMs c.now = start then c.cost else 0 := by
  by_cases h : alignedStart o.windowMs c.now = start
  · simp [billed, List.filter_append, h]
  · simp [billed, List.filter_append, h]

theorem billedTo_concat : billedTo o tenant start (log ++ [c])
    = billedTo o tenant start log
      + if c.tenant = tenant ∧ alignedStart o.windowMs c.now = start then c.cost else 0 := by
  rw [billedTo, List.filter_append]
  by_cases h : c.tenant = tenant
  · rw [List.filter_cons_of_pos (by simpa using h), List.filter_nil, billed_concat]
    simp [billedTo, h]
  · rw [List.filter_cons_of_neg (by simpa using h), List.filter_nil, List.append_nil]
    simp [billedTo, h]

/-- Nothing is admitted in a window with no checks. -/
theorem billed_eq_zero (h : ∀ c ∈ log, alignedStart o.windowMs c.now ≠ start) :
    billed o start log = 0 := by
  have hnone : (log.filter fun c => alignedStart o.windowMs c.now = start) = [] :=
    List.filter_eq_nil_iff.mpr fun c hc => by simpa using h c hc
  rw [billed, hnone]
  rfl

end Bills

/-! ### The accounts -/

/-- The state against what was admitted. -/
structure Accounts (o : FairShareOptions) (now : ℚ) (s : Shares) (log : List Check) : Prop where
  current : ∀ start ∈ s.windowStart, ∃ t ≤ now, start = alignedStart o.windowMs t
  past : ∀ c ∈ log, ∃ start ∈ s.windowStart, alignedStart o.windowMs c.now ≤ start
  used_eq : ∀ start ∈ s.windowStart, ∀ tenant,
    (s.used.lookup tenant).getD 0 = billedTo o tenant start log
  total_billed : ∀ start ∈ s.windowStart, s.total = billed o start log
  total_eq : s.total = s.used.sum fun _ units => units
  within : ∀ start, billed o start log ≤ o.budget

section Steps

variable {o : FairShareOptions} {now now' : ℚ} {s : Shares} {log : List Check}

theorem FairShareOptions.budget_nonneg (o : FairShareOptions) : 0 ≤ o.budget :=
  Int.floor_nonneg.mpr o.limit_pos.le

theorem accounts_start (o : FairShareOptions) (now : ℚ) : Accounts o now .start [] where
  current := by rintro start ⟨⟩
  past := by rintro c ⟨⟩
  used_eq := by rintro start ⟨⟩
  total_billed := by rintro start ⟨⟩
  total_eq := rfl
  within start := by
    show (0 : ℚ) ≤ o.budget
    exact_mod_cast o.budget_nonneg

/-- Rolling the window leaves the state of the window that holds `now'`. -/
theorem Accounts.rollWindow (h : Accounts o now s log) (hle : now ≤ now') :
    Accounts o now' (s.rollWindow o now') log ∧
      (s.rollWindow o now').windowStart = some (alignedStart o.windowMs now') := by
  rw [Shares.rollWindow, startOf_exact]
  by_cases hover : s.Over o now'
  · rw [if_pos hover]
    -- nothing was admitted in the new window
    have hnew : ∀ c ∈ log, alignedStart o.windowMs c.now ≠ alignedStart o.windowMs now' := by
      intro c hc
      obtain ⟨start, hstart, hpast⟩ := h.past c hc
      obtain ⟨t, -, rfl⟩ := h.current start hstart
      have hroll := add_le_alignedStart o.windowMs_pos (hover _ hstart)
      linarith [o.windowMs_pos]
    refine ⟨⟨?_, fun c hc => ?_, ?_, ?_, rfl, h.within⟩, rfl⟩
    · rintro start ⟨⟩
      exact ⟨now', le_rfl, rfl⟩
    · obtain ⟨start, hstart, hpast⟩ := h.past c hc
      obtain ⟨t, -, rfl⟩ := h.current start hstart
      refine ⟨_, rfl, ?_⟩
      have hroll := add_le_alignedStart o.windowMs_pos (hover _ hstart)
      linarith [o.windowMs_pos]
    · rintro start ⟨⟩ tenant
      exact (billed_eq_zero fun c hc => hnew c (List.mem_filter.mp hc).1).symm
    · rintro start ⟨⟩
      exact (billed_eq_zero hnew).symm
  · rw [if_neg hover]
    obtain ⟨start, hstart, hlt⟩ : ∃ start ∈ s.windowStart, now' < start + o.windowMs := by
      rw [Shares.Over] at hover
      push Not at hover
      exact hover
    obtain ⟨t, ht, rfl⟩ := h.current start hstart
    have hsame := alignedStart_eq_of_lt o.windowMs_pos (ht.trans hle) hlt
    refine ⟨⟨fun start hstart => ?_, h.past, h.used_eq, h.total_billed, h.total_eq, h.within⟩, ?_⟩
    · obtain ⟨t, ht, heq⟩ := h.current start hstart
      exact ⟨t, ht.trans hle, heq⟩
    · rw [hsame]
      exact hstart

theorem Accounts.touch (h : Accounts o now s log) (tenant : String) :
    Accounts o now (s.touch tenant) log := by
  rw [Shares.touch]
  split
  · rename_i hnew
    refine ⟨h.current, h.past, fun start hstart tenant' => ?_, h.total_billed, ?_, h.within⟩
    · rw [← h.used_eq start hstart, OrderedMap.lookup_set]
      split
      · rename_i heq
        rw [← heq, hnew]
        rfl
      · rfl
    · show s.total = _
      rw [OrderedMap.sum_set, OrderedMap.sum_erase_of_lookup_eq_none _ hnew, zero_add, h.total_eq]
  · exact h

theorem touch_lookup (s : Shares) (tenant : String) :
    ((s.touch tenant).used.lookup tenant).isSome := by
  rw [Shares.touch]
  split
  · rw [OrderedMap.lookup_set_self]
    rfl
  · exact Option.isSome_iff_ne_none.mpr ‹_›

theorem touch_windowStart (s : Shares) (tenant : String) :
    (s.touch tenant).windowStart = s.windowStart := by
  rw [Shares.touch]
  split <;> rfl

/-- The units of a tenant more, in the sum of all. -/
theorem sum_used_set {c : Check} (hseen : (s.used.lookup c.tenant).isSome) :
    ((s.used.set c.tenant ((s.used.lookup c.tenant).getD 0 + c.cost)).sum fun _ units => units)
      = (s.used.sum fun _ units => units) + c.cost := by
  obtain ⟨units, hunits⟩ := Option.isSome_iff_exists.mp hseen
  rw [OrderedMap.sum_set, OrderedMap.sum_eq_add_sum_erase _ hunits, hunits, Option.getD_some]
  ring

/-- **A check keeps the accounts.** -/
theorem Accounts.settle {c : Check} (h : Accounts o c.now s log)
    (hstart : s.windowStart = some (alignedStart o.windowMs c.now))
    (hseen : (s.used.lookup c.tenant).isSome) (fairCap : ℤ) :
    Accounts o c.now (s.settle o c fairCap).1
      (log ++ if (s.settle o c fairCap).2.allowed then [c] else []) := by
  simp only [Shares.settle, fl_exact]
  split
  · rename_i hfits
    dsimp only
    rw [if_pos rfl]
    refine ⟨h.current, fun d hd => ?_, fun start hs tenant => ?_, fun start hs => ?_, ?_,
      fun start => ?_⟩
    · rcases List.mem_append.mp hd with hd | hd
      · exact h.past d hd
      · obtain rfl := List.mem_singleton.mp hd
        exact ⟨_, hstart, le_rfl⟩
    · have hw : alignedStart o.windowMs c.now = start := Option.some.inj (hstart.symm.trans hs)
      rw [billedTo_concat, ← h.used_eq start hs, OrderedMap.lookup_set]
      by_cases ht : c.tenant = tenant
      · rw [if_pos ht, if_pos ⟨ht, hw⟩, ht]
        rfl
      · rw [if_neg ht, if_neg fun hboth => ht hboth.1, add_zero]
    · have hw : alignedStart o.windowMs c.now = start := Option.some.inj (hstart.symm.trans hs)
      show s.total + c.cost = _
      rw [billed_concat, if_pos hw, h.total_billed start hs]
    · show s.total + c.cost = _
      rw [sum_used_set hseen, h.total_eq]
    · rw [billed_concat]
      split
      · rename_i hw
        rw [← h.total_billed start (hstart.trans (congrArg some hw))]
        exact hfits.1
      · rw [add_zero]
        exact h.within start
  · rw [if_neg Bool.false_ne_true, List.append_nil]
    exact h

theorem Accounts.mono (h : Accounts o now s log) (hle : now ≤ now') : Accounts o now' s log where
  current start hstart := by
    obtain ⟨t, ht, heq⟩ := h.current start hstart
    exact ⟨t, ht.trans hle, heq⟩
  past := h.past
  used_eq := h.used_eq
  total_billed := h.total_billed
  total_eq := h.total_eq
  within := h.within

/-- The state in which a part is computed: the window is the current one, and the tenant is
there. -/
theorem Accounts.seen {c : Check} (h : Accounts o now s log) (hle : now ≤ c.now) :
    Accounts o c.now (s.seen o c) log ∧
      (s.seen o c).windowStart = some (alignedStart o.windowMs c.now) ∧
      ((s.seen o c).used.lookup c.tenant).isSome := by
  obtain ⟨hroll, hstart⟩ := h.rollWindow hle
  exact ⟨hroll.touch c.tenant, (touch_windowStart _ _).trans hstart, touch_lookup _ _⟩

/-! ### Who gets its part -/

/-- A check is allowed when it fits in the window and in the cap of its tenant. -/
theorem Accounts.allowed_iff {c : Check} (h : Accounts o c.now s log)
    (hstart : s.windowStart = some (alignedStart o.windowMs c.now)) (fairCap : ℤ) :
    (s.settle o c fairCap).2.allowed = true ↔
      billed o (alignedStart o.windowMs c.now) log + c.cost ≤ o.budget ∧
        billedTo o c.tenant (alignedStart o.windowMs c.now) log + c.cost ≤ fairCap := by
  rw [← h.total_billed _ hstart, ← h.used_eq _ hstart, Shares.settle]
  split
  · exact iff_of_true rfl ‹_›
  · exact iff_of_false Bool.false_ne_true ‹_›

/-- **Where there is no room for a part, another tenant has more than its own**, if all parts fit in
the budget. -/
theorem Accounts.starved {c : Check} (h : Accounts o c.now s log)
    (hstart : s.windowStart = some (alignedStart o.windowMs c.now))
    (hseen : (s.used.lookup c.tenant).isSome) (share : String → ℤ)
    (hshare : (s.used.sum fun tenant _ => (share tenant : ℚ)) ≤ o.budget)
    (hwithin : billedTo o c.tenant (alignedStart o.windowMs c.now) log + c.cost ≤ share c.tenant)
    (hroom : ¬ billed o (alignedStart o.windowMs c.now) log + c.cost ≤ o.budget) :
    ∃ tenant ∈ s.used.keys, tenant ≠ c.tenant ∧
      share tenant < billedTo o tenant (alignedStart o.windowMs c.now) log := by
  by_contra hnone
  push Not at hnone
  refine hroom ?_
  obtain ⟨units, hunits⟩ := Option.isSome_iff_exists.mp hseen
  rw [← h.used_eq _ hstart] at hwithin
  rw [← h.total_billed _ hstart, h.total_eq, ← sum_used_set hseen]
  calc ((s.used.set c.tenant ((s.used.lookup c.tenant).getD 0 + c.cost)).sum fun _ units => units)
      ≤ (s.used.set c.tenant ((s.used.lookup c.tenant).getD 0 + c.cost)).sum
          fun tenant _ => (share tenant : ℚ) := by
        refine OrderedMap.sum_le_sum fun tenant v hv => ?_
        rw [OrderedMap.lookup_set] at hv
        by_cases ht : c.tenant = tenant
        · rw [if_pos ht] at hv
          rw [← Option.some.inj hv, ← ht]
          exact hwithin
        · rw [if_neg ht] at hv
          have hle := hnone tenant (OrderedMap.mem_keys_of_lookup hv) (Ne.symm ht)
          rw [← h.used_eq _ hstart, hv, Option.getD_some] at hle
          exact hle
    _ = s.used.sum fun tenant _ => (share tenant : ℚ) := by
        rw [OrderedMap.sum_key, OrderedMap.sum_key,
          OrderedMap.keys_set_of_mem (OrderedMap.mem_keys_of_lookup hunits)]
    _ ≤ o.budget := hshare

end Steps

/-! ### Runs -/

section AllRuns

variable {now now' : ℚ} {log cs : List Check} {c : Check}

/-- What every check keeps, checks in the order of their times keep. -/
theorem run_admitted {σ : Type*} {m : Service σ Check (Except NotPositive Decision)}
    {I : ℚ → σ → List Check → Prop} {s : σ}
    (hmono : ∀ {now now' s log}, now ≤ now' → I now s log → I now' s log)
    (hstep : ∀ s log c, I c.now s log →
      I c.now (m s c).1 (log ++ if allows m s c then [c] else []))
    (hstart : ∀ now, I now s []) (hsorted : cs.Pairwise fun c c' => c.now ≤ c'.now)
    (hnow : ∀ c ∈ cs, c.now ≤ now) : I now (after m s cs) (admitted m s cs) := by
  induction cs using List.reverseRecOn generalizing now with
  | nil => exact hstart now
  | append_singleton cs c ih =>
    obtain ⟨hcs, -, hlast⟩ := List.pairwise_append.mp hsorted
    have hbefore := ih hcs fun d hd => hlast d hd c (List.mem_singleton_self c)
    rw [after_append, admitted_append]
    refine hmono (hnow c (List.mem_append_right _ (List.mem_singleton_self c))) ?_
    have hone : admitted m (after m s cs) [c] = if allows m (after m s cs) c then [c] else [] := by
      rw [admitted, admitted, List.append_nil]
    rw [hone]
    exact hstep _ _ c hbefore

theorem allows_of_error {σ : Type*} {m : Service σ Check (Except NotPositive Decision)} {s : σ}
    {e : NotPositive} (h : m s c = (s, .error e)) : allows m s c = false := by
  rw [allows, h]
  rfl

/-- A check of `fairShare` that is accepted. -/
theorem fairShare_eq (o : FairShareOptions) (s : Shares) (hcost : 0 < c.cost) :
    fairShare o s c = (((s.seen o c).settle o c (max 1 ((s.seen o c).share o.budget))).1,
      .ok ((s.seen o c).settle o c (max 1 ((s.seen o c).share o.budget))).2) :=
  if_neg hcost.not_ge

theorem fairShare_step (o : FairShareOptions) (s : Shares) (log : List Check) (c : Check)
    (h : Accounts o c.now s log) : Accounts o c.now (fairShare o s c).1
      (log ++ if allows (fairShare o) s c then [c] else []) := by
  rcases le_or_gt c.cost 0 with hcost | hcost
  · have herror : fairShare o s c = (s, .error ⟨"fairShare.cost", c.cost⟩) := if_pos hcost
    rw [allows_of_error herror, herror, if_neg Bool.false_ne_true, List.append_nil]
    exact h
  · obtain ⟨hseen, hstart, htenant⟩ := h.seen le_rfl
    rw [allows, fairShare_eq o s hcost]
    exact hseen.settle hstart htenant _

/-- The accounts of `weightedFairShare`: every tenant that was seen has a weight. -/
structure WeightedAccounts (o : WeightedFairShareOptions) (now : ℚ) (s : WeightedShares)
    (log : List Check) : Prop where
  accounts : Accounts o.toFairShareOptions now s.toShares log
  keys_eq : s.used.keys = s.weights.keys
  weight_pos : ∀ tenant weight, s.weights.lookup tenant = some weight → 0 < weight

theorem weightedAccounts_start (o : WeightedFairShareOptions) (now : ℚ) :
    WeightedAccounts o now .start [] where
  accounts := accounts_start _ now
  keys_eq := rfl
  weight_pos := by
    intro tenant weight h
    cases h

theorem toShares_rollWindow [Rounding] (o : FairShareOptions) (s : WeightedShares) (now : ℚ) :
    (s.rollWindow o now).toShares = s.toShares.rollWindow o now := by
  rw [WeightedShares.rollWindow]
  split
  · rfl
  · rename_i hover
    exact (if_neg hover).symm

theorem toShares_seen [Rounding] (o : WeightedFairShareOptions) (s : WeightedShares) :
    (s.seen o c).toShares = s.toShares.seen o.toFairShareOptions c := by
  rw [Shares.seen, ← toShares_rollWindow]
  rfl

theorem WeightedAccounts.rollWindow {o : WeightedFairShareOptions} {s : WeightedShares}
    (h : WeightedAccounts o now s log) (now' : ℚ) :
    (s.rollWindow o.toFairShareOptions now').used.keys
        = (s.rollWindow o.toFairShareOptions now').weights.keys ∧
      ∀ tenant weight, (s.rollWindow o.toFairShareOptions now').weights.lookup tenant
        = some weight →
        0 < weight := by
  rw [WeightedShares.rollWindow]
  split
  · rename_i hover
    have hused : (s.toShares.rollWindow o.toFairShareOptions now').used = .empty := by
      rw [Shares.rollWindow, if_pos hover]
    rw [hused]
    refine ⟨rfl, fun tenant weight hweight => ?_⟩
    cases hweight
  · exact ⟨h.keys_eq, h.weight_pos⟩

theorem WeightedAccounts.seen {o : WeightedFairShareOptions} {s : WeightedShares}
    (h : WeightedAccounts o c.now s log) (hweight : 0 < o.weight c) :
    WeightedAccounts o c.now (s.seen o c) log ∧
      (s.seen o c).windowStart = some (alignedStart o.windowMs c.now) ∧
      ((s.seen o c).used.lookup c.tenant).isSome := by
  obtain ⟨hseen, hstart, htenant⟩ := h.accounts.seen (c := c) le_rfl
  obtain ⟨hkeys, hpos⟩ := h.rollWindow c.now
  rw [← toShares_seen] at hseen hstart htenant
  refine ⟨⟨hseen, ?_, fun tenant weight hlookup => ?_⟩, hstart, htenant⟩
  · -- both maps get the tenant at the same place
    show ((s.rollWindow o.toFairShareOptions c.now).touch c.tenant).used.keys
      = ((s.rollWindow o.toFairShareOptions c.now).weights.set c.tenant (o.weight c)).keys
    rw [Shares.touch]
    by_cases hmem : c.tenant ∈ (s.rollWindow o.toFairShareOptions c.now).used.keys
    · rw [if_neg fun hnone => OrderedMap.lookup_eq_none.mp hnone hmem, hkeys,
        OrderedMap.keys_set_of_mem (hkeys ▸ hmem)]
    · rw [if_pos (OrderedMap.lookup_eq_none.mpr hmem), OrderedMap.keys_set_of_notMem hmem, hkeys,
        OrderedMap.keys_set_of_notMem (hkeys ▸ hmem)]
  · change ((s.rollWindow o.toFairShareOptions c.now).weights.set c.tenant
      (o.weight c)).lookup tenant = some weight at hlookup
    rw [OrderedMap.lookup_set] at hlookup
    split at hlookup
    · rwa [← Option.some.inj hlookup]
    · exact hpos tenant weight hlookup

/-- A check of `weightedFairShare` that is accepted. -/
theorem weightedFairShare_eq (o : WeightedFairShareOptions) (s : WeightedShares)
    (hcost : 0 < c.cost) (hweight : 0 < o.weight c) :
    weightedFairShare o s c =
      (⟨((s.seen o c).settle o.toFairShareOptions c
          (max 1 ((s.seen o c).share o.budget c.tenant))).1, (s.seen o c).weights⟩,
        .ok ((s.seen o c).settle o.toFairShareOptions c
          (max 1 ((s.seen o c).share o.budget c.tenant))).2) := by
  have hshare : (s.seen o c).share o.budget c.tenant
      = (s.seen o c).weightedShare o (o.weight c) := by
    have hlookup : (s.seen o c).weights.lookup c.tenant = some (o.weight c) :=
      OrderedMap.lookup_set_self _ _ _
    rw [WeightedShares.share, hlookup, WeightedShares.weightedShare, sumOf_exact]
    rfl
  rw [hshare]
  exact (if_neg hcost.not_ge).trans (if_neg hweight.not_ge)

theorem keys_settle {o : FairShareOptions} {s : Shares}
    (hseen : (s.used.lookup c.tenant).isSome) (fairCap : ℤ) :
    (s.settle o c fairCap).1.used.keys = s.used.keys := by
  obtain ⟨units, hunits⟩ := Option.isSome_iff_exists.mp hseen
  rw [Shares.settle]
  split
  · exact OrderedMap.keys_set_of_mem (OrderedMap.mem_keys_of_lookup hunits)
  · rfl

theorem weightedFairShare_step (o : WeightedFairShareOptions) (s : WeightedShares)
    (log : List Check) (c : Check) (h : WeightedAccounts o c.now s log) :
    WeightedAccounts o c.now (weightedFairShare o s c).1
      (log ++ if allows (weightedFairShare o) s c then [c] else []) := by
  rcases le_or_gt c.cost 0 with hcost | hcost
  · have herror : weightedFairShare o s c = (s, .error ⟨"weightedFairShare.cost", c.cost⟩) :=
      if_pos hcost
    rw [allows_of_error herror, herror, if_neg Bool.false_ne_true, List.append_nil]
    exact h
  rcases le_or_gt (o.weight c) 0 with hweight | hweight
  · have herror : weightedFairShare o s c
        = (s, .error ⟨"weightedFairShare.weight", o.weight c⟩) :=
      (if_neg hcost.not_ge).trans (if_pos hweight)
    rw [allows_of_error herror, herror, if_neg Bool.false_ne_true, List.append_nil]
    exact h
  · obtain ⟨hseen, hstart, htenant⟩ := h.seen hweight
    rw [allows, weightedFairShare_eq o s hcost hweight]
    refine ⟨hseen.accounts.settle hstart htenant _, ?_, hseen.weight_pos⟩
    exact (keys_settle htenant _).trans hseen.keys_eq

/-! ### The parts fit in the budget -/

theorem sum_share_le (s : Shares) (amount : ℚ) (hseen : s.used.size ≠ 0) :
    (s.used.sum fun _ _ => ((s.share amount : ℤ) : ℚ)) ≤ amount := by
  have hsize : (0 : ℚ) < s.used.size := by exact_mod_cast Nat.pos_of_ne_zero hseen
  rw [OrderedMap.sum_const, nsmul_eq_mul]
  calc (s.used.size : ℚ) * s.share amount ≤ s.used.size * (amount / s.used.size) :=
        mul_le_mul_of_nonneg_left (Int.floor_le _) hsize.le
    _ = amount := mul_div_cancel₀ _ hsize.ne'

theorem WeightedAccounts.sum_share_le {o : WeightedFairShareOptions} {s : WeightedShares}
    (h : WeightedAccounts o now s log) {amount : ℚ} (hamount : 0 ≤ amount) :
    (s.used.sum fun tenant _ => ((s.share amount tenant : ℤ) : ℚ)) ≤ amount := by
  rw [OrderedMap.sum_key, h.keys_eq, ← OrderedMap.sum_key]
  have hactive : 0 ≤ s.activeWeight :=
    OrderedMap.sum_nonneg fun tenant weight hw => (h.weight_pos tenant weight hw).le
  calc (s.weights.sum fun tenant _ => ((s.share amount tenant : ℤ) : ℚ))
      ≤ s.weights.sum fun _ weight => weight * (amount / s.activeWeight) := by
        refine OrderedMap.sum_le_sum fun tenant weight hw => ?_
        rw [WeightedShares.share, hw, Option.getD_some, ← mul_div_assoc]
        exact Int.floor_le _
    _ = s.activeWeight * (amount / s.activeWeight) := by
        rw [OrderedMap.sum, List.sum_map_mul_right]
        rfl
    _ ≤ amount := by
        rcases hactive.eq_or_lt with hzero | hpos
        · rw [← hzero, zero_mul]
          exact hamount
        · rw [mul_div_cancel₀ _ hpos.ne']

/-- What is kept of the guarantee, where `share` is the part of each tenant that was seen: of the
check `c`, which is allowed or not, after those in `log`. -/
structure Kept (o : FairShareOptions) (share : String → ℤ) (tenants : List String)
    (log : List Check) (c : Check) (allowed : Bool) : Prop where
  within : ∀ start, billed o start (log ++ if allowed then [c] else []) ≤ ⌊o.limit⌋
  /-- In its part a tenant gets what the others have left. -/
  allowed_iff : billedTo o c.tenant (alignedStart o.windowMs c.now) log + c.cost
      ≤ max 1 (share c.tenant) →
    (allowed = true ↔ billed o (alignedStart o.windowMs c.now) log + c.cost ≤ ⌊o.limit⌋)
  /-- Beyond its part it gets nothing. -/
  denied : max 1 (share c.tenant)
      < billedTo o c.tenant (alignedStart o.windowMs c.now) log + c.cost → allowed = false
  /-- If nothing is left, another tenant has more than its part. -/
  starved : billedTo o c.tenant (alignedStart o.windowMs c.now) log + c.cost ≤ share c.tenant →
    allowed = false → ∃ tenant ∈ tenants, tenant ≠ c.tenant ∧
      share tenant < billedTo o tenant (alignedStart o.windowMs c.now) log

theorem Accounts.kept {o : FairShareOptions} {s : Shares} (h : Accounts o c.now s log)
    (hstart : s.windowStart = some (alignedStart o.windowMs c.now))
    (hseen : (s.used.lookup c.tenant).isSome) (share : String → ℤ)
    (hshare : (s.used.sum fun tenant _ => (share tenant : ℚ)) ≤ o.budget) :
    Kept o share s.used.keys log c (s.settle o c (max 1 (share c.tenant))).2.allowed := by
  have hiff := h.allowed_iff hstart (max 1 (share c.tenant))
  have hcap : ((share c.tenant : ℤ) : ℚ) ≤ (max 1 (share c.tenant) : ℤ) := by
    exact_mod_cast le_max_right 1 (share c.tenant)
  refine ⟨(h.settle hstart hseen _).within, fun hin => ?_, fun hover => ?_, fun hin hdenied => ?_⟩
  · exact hiff.trans (and_iff_left hin)
  · rw [← Bool.not_eq_true, hiff]
    exact fun hboth => hboth.2.not_gt hover
  · refine h.starved hstart hseen share hshare hin fun hroom => ?_
    rw [hiff.mpr ⟨hroom, hin.trans hcap⟩] at hdenied
    cases hdenied

/-- Equal parts of the limit are those of the budget. -/
theorem share_limit (o : FairShareOptions) (s : Shares) : s.share o.limit = s.share o.budget := by
  rw [Shares.share, Shares.share, FairShareOptions.budget, Int.floor_div_natCast,
    Int.floor_div_natCast, Int.floor_intCast]

/-- What is kept of the guarantee of `fairShare` over rationals. -/
theorem fairShare_kept (hsorted : (cs ++ [c]).Pairwise fun c c' => c.now ≤ c'.now)
    (hcost : 0 < c.cost) (o : FairShareOptions) :
    Kept o (fun _ => ((after (fairShare o) .start cs).seen o c).share o.limit)
      ((after (fairShare o) .start cs).seen o c).used.keys (admitted (fairShare o) .start cs) c
      (allows (fairShare o) (after (fairShare o) .start cs) c) := by
  obtain ⟨hcs, -, hlast⟩ := List.pairwise_append.mp hsorted
  have hnow : ∀ d ∈ cs, d.now ≤ c.now := fun d hd => hlast d hd c (List.mem_singleton_self c)
  have h := run_admitted (I := Accounts o) (fun hle h => h.mono hle)
    (fun s log c h => fairShare_step o s log c h) (accounts_start o) hcs hnow
  obtain ⟨hseen, hstart, htenant⟩ := h.seen le_rfl
  have hsize : ((after (fairShare o) .start cs).seen o c).used.size ≠ 0 := by
    obtain ⟨units, hunits⟩ := Option.isSome_iff_exists.mp htenant
    exact List.length_eq_zero_iff.not.mpr
      (List.ne_nil_of_mem (OrderedMap.mem_entries_of_lookup hunits))
  have hkept := hseen.kept hstart htenant
    (fun _ => ((after (fairShare o) .start cs).seen o c).share o.budget)
    (sum_share_le _ _ hsize)
  rw [allows, fairShare_eq o _ hcost, share_limit]
  exact hkept

/-- What is kept of the guarantee of `weightedFairShare` over rationals. -/
theorem weightedFairShare_kept (hsorted : (cs ++ [c]).Pairwise fun c c' => c.now ≤ c'.now)
    (hcost : 0 < c.cost) (o : WeightedFairShareOptions) (hweight : 0 < o.weight c) :
    Kept o.toFairShareOptions ((after (weightedFairShare o) .start cs).seen o c |>.share o.budget)
      ((after (weightedFairShare o) .start cs).seen o c).used.keys
      (admitted (weightedFairShare o) .start cs) c
      (allows (weightedFairShare o) (after (weightedFairShare o) .start cs) c) := by
  obtain ⟨hcs, -, hlast⟩ := List.pairwise_append.mp hsorted
  have hnow : ∀ d ∈ cs, d.now ≤ c.now := fun d hd => hlast d hd c (List.mem_singleton_self c)
  have h := run_admitted (I := WeightedAccounts o)
    (fun hle h => ⟨h.accounts.mono hle, h.keys_eq, h.weight_pos⟩)
    (fun s log c h => weightedFairShare_step o s log c h) (weightedAccounts_start o) hcs hnow
  obtain ⟨hseen, hstart, htenant⟩ := h.seen hweight
  have hkept := hseen.accounts.kept hstart htenant
    ((after (weightedFairShare o) .start cs).seen o c |>.share o.budget)
    (hseen.sum_share_le (by exact_mod_cast o.budget_nonneg))
  rw [allows, weightedFairShare_eq o _ hcost hweight]
  exact hkept

/-! ### Checks whose numbers are not rounded -/

section Plain

variable [Rounding] {o : FairShareOptions} {s : Shares} {c : Check}

/-- What a check adds up is not rounded. -/
structure Plain (o : FairShareOptions) (s : Shares) (c : Check) : Prop where
  start : startOf o.windowMs c.now = alignedStart o.windowMs c.now
  ended : ∀ windowStart ∈ s.windowStart, Unrounded (windowStart + o.windowMs)
  total : Unrounded ((s.seen o c).total + c.cost)
  used : Unrounded (((s.seen o c).used.lookup c.tenant).getD 0 + c.cost)

/-- The numbers of a check of `fairShare` are not rounded past a whole number. -/
structure PlainEqual (o : FairShareOptions) (s : Shares) (c : Check) : Prop where
  plain : Plain o s c
  share : FloorKept (o.budget / (s.seen o c).used.size)

/-- The numbers of a check of `weightedFairShare` are not rounded past a whole number. -/
structure PlainWeighted (o : WeightedFairShareOptions) (s : WeightedShares) (c : Check) : Prop where
  plain : Plain o.toFairShareOptions s.toShares c
  weights : ∀ ws ∈ ((s.seen o c).weights.entries.map Prod.snd).inits, Unrounded ws.sum
  product : Unrounded (o.weight c * o.budget)
  share : FloorKept (o.weight c * o.budget / (s.seen o c).activeWeight)

instance Plain.decidable (o : FairShareOptions) (s : Shares) (c : Check) :
    Decidable (Plain o s c) :=
  decidable_of_iff (_ ∧ _ ∧ _ ∧ _)
    ⟨fun ⟨h₁, h₂, h₃, h₄⟩ => ⟨h₁, h₂, h₃, h₄⟩, fun ⟨h₁, h₂, h₃, h₄⟩ => ⟨h₁, h₂, h₃, h₄⟩⟩

instance PlainEqual.decidable (o : FairShareOptions) (s : Shares) (c : Check) :
    Decidable (PlainEqual o s c) :=
  decidable_of_iff (_ ∧ _) ⟨fun ⟨h₁, h₂⟩ => ⟨h₁, h₂⟩, fun ⟨h₁, h₂⟩ => ⟨h₁, h₂⟩⟩

instance PlainWeighted.decidable (o : WeightedFairShareOptions) (s : WeightedShares) (c : Check) :
    Decidable (PlainWeighted o s c) :=
  decidable_of_iff (_ ∧ _ ∧ _ ∧ _)
    ⟨fun ⟨h₁, h₂, h₃, h₄⟩ => ⟨h₁, h₂, h₃, h₄⟩, fun ⟨h₁, h₂, h₃, h₄⟩ => ⟨h₁, h₂, h₃, h₄⟩⟩

theorem Plain.over_iff (h : Plain o s c) :
    s.Over o c.now ↔ @Shares.Over Rounding.exact o s c.now :=
  forall₂_congr fun windowStart hmem => by
    rw [(h.ended windowStart hmem : fl _ = _)]
    rfl

theorem Plain.rollWindow_eq (h : Plain o s c) :
    s.rollWindow o c.now = @Shares.rollWindow Rounding.exact o s c.now := by
  rw [Shares.rollWindow, @Shares.rollWindow.eq_1 Rounding.exact, h.start, startOf_exact]
  exact if_congr h.over_iff rfl rfl

theorem Plain.seen_eq (h : Plain o s c) : s.seen o c = @Shares.seen Rounding.exact o s c :=
  congrArg (Shares.touch · c.tenant) h.rollWindow_eq

/-- A check whose numbers are not rounded comes to the same as one with rationals. -/
theorem Plain.settle_eq (h : Plain o s c) (fairCap : ℤ) :
    ((s.seen o c).settle o c fairCap).1
        = (@Shares.settle Rounding.exact o (@Shares.seen Rounding.exact o s c) c fairCap).1 ∧
      ((s.seen o c).settle o c fairCap).2.allowed
        = (@Shares.settle Rounding.exact o (@Shares.seen Rounding.exact o s c) c fairCap).2.allowed
          := by
  have htotal := h.total
  have hused := h.used
  rw [h.seen_eq] at htotal hused ⊢
  rw [Unrounded] at htotal hused
  simp only [Shares.settle, htotal, hused, fl_exact]
  split
  · exact ⟨rfl, rfl⟩
  · exact ⟨rfl, rfl⟩

theorem fairShare_accepted (o : FairShareOptions) (s : Shares) (hcost : 0 < c.cost) :
    fairShare o s c = (((s.seen o c).settle o c (max 1 ((s.seen o c).equalShare o))).1,
      .ok ((s.seen o c).settle o c (max 1 ((s.seen o c).equalShare o))).2) :=
  if_neg hcost.not_ge

theorem weightedFairShare_accepted (o : WeightedFairShareOptions) (s : WeightedShares)
    (hcost : 0 < c.cost) (hweight : 0 < o.weight c) :
    weightedFairShare o s c =
      (⟨((s.seen o c).settle o.toFairShareOptions c
          (max 1 ((s.seen o c).weightedShare o (o.weight c)))).1, (s.seen o c).weights⟩,
        .ok ((s.seen o c).settle o.toFairShareOptions c
          (max 1 ((s.seen o c).weightedShare o (o.weight c)))).2) :=
  (if_neg hcost.not_ge).trans (if_neg hweight.not_ge)

theorem PlainEqual.step_eq (h : PlainEqual o s c) :
    (fairShare o s c).1 = (@fairShare Rounding.exact o s c).1 ∧
      allows (fairShare o) s c = allows (@fairShare Rounding.exact o) s c := by
  have hshare : (s.seen o c).equalShare o
      = @Shares.equalShare Rounding.exact o (@Shares.seen Rounding.exact o s c) := by
    rw [← h.plain.seen_eq]
    exact h.share
  obtain ⟨hstate, hallowed⟩ := h.plain.settle_eq (max 1 ((s.seen o c).equalShare o))
  rcases le_or_gt c.cost 0 with hcost | hcost
  · have herror : ∀ r : Rounding, @fairShare r o s c = (s, .error ⟨"fairShare.cost", c.cost⟩) :=
      fun _ => if_pos hcost
    rw [allows, allows, herror, herror]
    exact ⟨rfl, rfl⟩
  · rw [allows, allows, fairShare_accepted o s hcost,
      @fairShare_accepted Rounding.exact _ o s hcost,
      ← hshare]
    exact ⟨hstate, hallowed⟩

theorem PlainWeighted.seen_eq {o : WeightedFairShareOptions} {s : WeightedShares}
    (h : PlainWeighted o s c) : s.seen o c = @WeightedShares.seen Rounding.exact o s c := by
  have hroll : s.rollWindow o.toFairShareOptions c.now
      = @WeightedShares.rollWindow Rounding.exact o.toFairShareOptions s c.now := by
    rw [WeightedShares.rollWindow, @WeightedShares.rollWindow.eq_1 Rounding.exact,
      h.plain.rollWindow_eq]
    exact if_congr h.plain.over_iff rfl rfl
  exact congrArg (fun s : WeightedShares => (⟨s.touch c.tenant,
    s.weights.set c.tenant (o.weight c)⟩ : WeightedShares)) hroll

theorem PlainWeighted.share_eq {o : WeightedFairShareOptions} {s : WeightedShares}
    (h : PlainWeighted o s c) : (s.seen o c).weightedShare o (o.weight c)
      = @WeightedShares.weightedShare Rounding.exact o (@WeightedShares.seen Rounding.exact o s c)
        (o.weight c) := by
  rw [← h.seen_eq, WeightedShares.weightedShare, @WeightedShares.weightedShare.eq_1 Rounding.exact,
    sumOf_eq_sum h.weights, sumOf_exact, (h.product : fl _ = _)]
  exact h.share

theorem PlainWeighted.step_eq {o : WeightedFairShareOptions} {s : WeightedShares}
    (h : PlainWeighted o s c) :
    (weightedFairShare o s c).1 = (@weightedFairShare Rounding.exact o s c).1 ∧
      allows (weightedFairShare o) s c = allows (@weightedFairShare Rounding.exact o) s c := by
  obtain ⟨hstate, hallowed⟩ := h.plain.settle_eq
    (max 1 ((s.seen o c).weightedShare o (o.weight c)))
  rw [← toShares_seen, ← @toShares_seen _ Rounding.exact] at hstate hallowed
  rcases le_or_gt c.cost 0 with hcost | hcost
  · have herror : ∀ r : Rounding,
        @weightedFairShare r o s c = (s, .error ⟨"weightedFairShare.cost", c.cost⟩) :=
      fun _ => if_pos hcost
    rw [allows, allows, herror, herror]
    exact ⟨rfl, rfl⟩
  rcases le_or_gt (o.weight c) 0 with hweight | hweight
  · have herror : ∀ r : Rounding,
        @weightedFairShare r o s c = (s, .error ⟨"weightedFairShare.weight", o.weight c⟩) :=
      fun _ => (if_neg hcost.not_ge).trans (if_pos hweight)
    rw [allows, allows, herror, herror]
    exact ⟨rfl, rfl⟩
  · rw [allows, allows, weightedFairShare_accepted o s hcost hweight,
      @weightedFairShare_accepted Rounding.exact _ o s hcost hweight, ← h.share_eq]
    refine ⟨?_, hallowed⟩
    dsimp only
    rw [hstate, h.seen_eq]

end Plain

section Transfer

variable {σ : Type*} {m m' : Service σ Check (Except NotPositive Decision)}
  {ok : σ → Check → Prop}

/-- Limiters that do the same of the checks that meet `ok` admit the same of them. -/
theorem admitted_congr (h : ∀ s c, ok s c → (m s c).1 = (m' s c).1 ∧ allows m s c = allows m' s c) :
    ∀ (cs : List Check) {s : σ}, AllMet m ok s cs → admitted m s cs = admitted m' s cs
  | [], _, _ => rfl
  | c :: cs, s, hok => by
    obtain ⟨hstate, hallows⟩ := h s c hok.1
    rw [admitted, admitted, hallows, ← hstate, admitted_congr h cs hok.2]

end Transfer

/-- **What is kept of the guarantee.** For any options and any checks, accepted or not, in the order
of their times, and any rounding that their numbers do not meet: no window is billed more than the
floor of the limit, and a check in the part of its tenant is allowed just where what the window was
billed leaves room for it. If it is not allowed, another tenant has more than its part. The parts
are those of the limit for `fairShare`, and those of its floor for `weightedFairShare`. -/
theorem shares_kept [Rounding] (hsorted : (cs ++ [c]).Pairwise fun c c' => c.now ≤ c'.now)
    (hcost : 0 < c.cost) :
    (∀ o : FairShareOptions, AllMet (fairShare o) (PlainEqual o) .start (cs ++ [c]) →
      Kept o (fun _ => ((after (fairShare o) .start cs).seen o c).share o.limit)
        ((after (fairShare o) .start cs).seen o c).used.keys (admitted (fairShare o) .start cs) c
        (allows (fairShare o) (after (fairShare o) .start cs) c)) ∧
    ∀ o : WeightedFairShareOptions, 0 < o.weight c →
      AllMet (weightedFairShare o) (PlainWeighted o) .start (cs ++ [c]) →
      Kept o.toFairShareOptions ((after (weightedFairShare o) .start cs).seen o c |>.share o.budget)
        ((after (weightedFairShare o) .start cs).seen o c).used.keys
        (admitted (weightedFairShare o) .start cs) c
        (allows (weightedFairShare o) (after (weightedFairShare o) .start cs) c) := by
  constructor
  · intro o hplain
    obtain ⟨hbefore, hlast, -⟩ := (allMet_append _ _ _).mp hplain
    have hafter := after_congr (n := @fairShare Rounding.exact o)
      (fun s c h => (PlainEqual.step_eq h).1) cs hbefore
    have hkept := fairShare_kept hsorted hcost o
    rw [← hafter, ← admitted_congr (fun s c h => PlainEqual.step_eq h) cs hbefore,
      ← hlast.step_eq.2, ← hlast.plain.seen_eq] at hkept
    exact hkept
  · intro o hweight hplain
    obtain ⟨hbefore, hlast, -⟩ := (allMet_append _ _ _).mp hplain
    have hafter := after_congr (n := @weightedFairShare Rounding.exact o)
      (fun s c h => (PlainWeighted.step_eq h).1) cs hbefore
    have hkept := weightedFairShare_kept hsorted hcost o hweight
    rw [← hafter, ← admitted_congr (fun s c h => PlainWeighted.step_eq h) cs hbefore,
      ← hlast.step_eq.2, ← hlast.seen_eq] at hkept
    exact hkept

end AllRuns

/-- A budget of ten a second. -/
def tenASecond : FairShareOptions where
  limit := 10
  windowMs := 1000
  limit_pos := by norm_num
  windowMs_pos := by norm_num

/-- The same with a weight of two for one tenant. -/
def weightedTenASecond : WeightedFairShareOptions where
  toFairShareOptions := tenASecond
  weightOf tenant := if tenant = "a" then 2 else 1

/-- One tenant takes six units, and another two. -/
def sixAndTwo : List Check := [⟨"a", 6, none, 0⟩, ⟨"b", 2, none, 5⟩]

/-- The check after them. -/
def twoMore : Check := ⟨"b", 2, none, 7⟩

instance (o : FairShareOptions) (s : Shares) (c : Check) : Decidable (@PlainEqual doubles o s c) :=
  @PlainEqual.decidable doubles o s c

instance (o : WeightedFairShareOptions) (s : WeightedShares) (c : Check) :
    Decidable (@PlainWeighted doubles o s c) :=
  @PlainWeighted.decidable doubles o s c

theorem shares_kept_six_and_two :
    (let m := @fairShare doubles tenASecond
      let s := @Shares.seen doubles tenASecond (after m .start sixAndTwo) twoMore
      Kept tenASecond (fun _ => s.share tenASecond.limit) s.used.keys (admitted m .start sixAndTwo)
        twoMore (allows m (after m .start sixAndTwo) twoMore)) ∧
    (let m := @weightedFairShare doubles weightedTenASecond
      let s := @WeightedShares.seen doubles weightedTenASecond (after m .start sixAndTwo) twoMore
      Kept tenASecond (s.share tenASecond.budget) s.used.keys (admitted m .start sixAndTwo)
        twoMore (allows m (after m .start sixAndTwo) twoMore)) :=
  have hsorted : (sixAndTwo ++ [twoMore]).Pairwise fun c c' => c.now ≤ c'.now := by
    decide +kernel
  ⟨(@shares_kept _ _ doubles hsorted (by decide +kernel)).1 tenASecond (by decide +kernel),
    (@shares_kept _ _ doubles hsorted (by decide +kernel)).2 weightedTenASecond (by decide +kernel)
      (by decide +kernel)⟩

/-- One tenant takes all ten units while it is alone. The part of another is five by then, and it
gets nothing. -/
theorem share_is_starved :
    ¬ ∀ (o : FairShareOptions) (cs : List Check) (c : Check),
      (cs ++ [c]).Pairwise (fun c c' => c.now ≤ c'.now) → 0 < c.cost →
        billedTo o c.tenant (alignedStart o.windowMs c.now)
            (admitted (@fairShare doubles o) .start cs) + c.cost
            ≤ (@Shares.seen doubles o (after (@fairShare doubles o) .start cs) c).share o.limit →
          allows (@fairShare doubles o) (after (@fairShare doubles o) .start cs) c = true := by
  intro h
  have hallowed := h tenASecond [⟨"a", 10, none, 0⟩] ⟨"b", 1, none, 5⟩ (by decide +kernel)
    (by norm_num) (by decide +kernel)
  revert hallowed
  decide +kernel

end ThrottleKit.Admission
