import ThrottleKit.Admission.Unified
import ThrottleKit.Algorithms.FixedWindow

/-!
# The replay of a sample against the live filter

Learned prices are adopted by a replay of the buffered arrivals. The live admitter prices a request,
then asks the rate axis for one unit and the cost axis for its cost, and stops at the first denial;
what an earlier axis has debited stays debited. The replay debits both budgets or neither.

So the two part at a request that the rate axis admits and the cost axis does not: live it has used
up a unit of the rate. With `R` of those, only the first `R` requests that clear their bid come as
far as the cost axis. They part too where rounding tells costs that are added up from costs that are
taken off the budget.

## Main definitions

* `Admitter`, `admitSync`, `live` — the live admitter over two fixed windows, and what it admits
* `counted` — what the replay counts
* `taken`, `remaining` — the costs that a budget takes of those that come, and what they leave
* `SameFit` — adding costs up finds the same to fit as taking them off
* `Agree` — the condition on the requests that clear their bid
* `Within` — the instants are of one window

## Main results

* `replay_eq_sum` — the revenue is that of the counted arrivals
* `live_eq_admits` — within a window, live is two counters
* `sameFit_iff_of_isWhole` — whole costs are found to fit the same as long as they are valid
* `counted_eq_live_iff` — the replay counts what live would admit exactly where they `Agree`

## What is left out

The concurrency axis, the asynchronous backends, and `lastDecisions`.
-/

namespace ThrottleKit.SampleReplay

open Rounding ThrottleKit.Admission ThrottleKit.JointLp
open ThrottleKit.Unified (AdmitOptions UnifiedAdmission denyByPolicy denyResult)

/-! ### The live admitter -/

/-- The options of an admitter with fixed prices and two fixed windows in process. -/
structure Admitter where
  rate : FixedWindow.Config
  ratePrefix : Option String
  cost : FixedWindow.Config
  costPrefix : Option String
  /-- The prices of a unit of the rate and of the cost. -/
  priceRate : ℚ
  priceCost : ℚ

/-- The prices in force. -/
def Admitter.duals (cfg : Admitter) : Duals := ⟨cfg.priceRate, cfg.priceCost, none⟩

/-- The stores of the two limiters. -/
structure Stores where
  rate : Entries FixedWindow.State
  cost : Entries FixedWindow.State

/-- Fresh windows. -/
def Stores.new : Stores := ⟨.empty, .empty⟩

/-- `finalize(undefined, snap)`: there is no slot to release. -/
def finalize (snap : AxisSnap) : UnifiedAdmission := ⟨combineSnapshot snap, .noop, none, false⟩

section

variable [Rounding]

/-- `admitSync(opts)`, or what a limiter throws. -/
def admitSync (cfg : Admitter) (s : Stores) (opts : AdmitOptions) (now : ℚ) :
    Stores × Except CostError UnifiedAdmission :=
  if opts.value ≥ bid cfg.duals opts.cost opts.hold then
    let rate := Limiter.check (FixedWindow.fixedWindow cfg.rate) cfg.ratePrefix s.rate opts.key 1
      now
    match rate.2 with
    | .error err => ({ s with rate := rate.1 }, .error err)
    | .ok d =>
      let snap : AxisSnap := ⟨some d, none, none⟩
      if d.allowed = false then
        ({ s with rate := rate.1 }, .ok (denyResult (combineSnapshot snap) snap))
      else
        let cost := Limiter.check (FixedWindow.fixedWindow cfg.cost) cfg.costPrefix s.cost opts.key
          opts.cost now
        match cost.2 with
        | .error err => (⟨rate.1, cost.1⟩, .error err)
        | .ok d' =>
          let snap : AxisSnap := ⟨some d, none, some d'⟩
          if d'.allowed = false then
            (⟨rate.1, cost.1⟩, .ok (denyResult (combineSnapshot snap) snap))
          else (⟨rate.1, cost.1⟩, .ok (finalize snap))
  else (s, .ok ⟨denyByPolicy (combineSnapshot ⟨none, none, none⟩), .noop, none, true⟩)

/-- Whether a call admits. -/
def admitted (r : Except CostError UnifiedAdmission) : Bool :=
  match r with
  | .ok admission => admission.decision.allowed
  | .error _ => false

/-- What the admitter would admit of the arrivals, each at its instant. -/
def live (cfg : Admitter) (key : String) : Stores → List (Arrival × ℚ) → List Bool
  | _, [] => []
  | s, (a, now) :: arrivals =>
    let r := admitSync cfg s ⟨key, a.cost, a.value, 0⟩ now
    admitted r.2 :: live cfg key r.1 arrivals

/-! ### The replay -/

/-- What the loop of `replaySampleRevenue` counts. -/
def counted (duals : Duals) : List Arrival → ℚ → ℚ → List Bool
  | [], _, _ => []
  | a :: buf, rateRem, costRem =>
    if rateRem ≥ 1 ∧ costRem ≥ a.cost ∧ a.value ≥ fl (duals.rate + fl (duals.cost * a.cost)) then
      true :: counted duals buf (fl (rateRem - 1)) (fl (costRem - a.cost))
    else false :: counted duals buf rateRem costRem

/-- The values of the arrivals that are counted. -/
def countedValues (buf : List Arrival) (admits : List Bool) : List ℚ :=
  ((buf.zip admits).filter Prod.snd).map fun p => p.1.value

/-- The revenue of the replay is that of the arrivals it counts. -/
theorem replay_eq_sum (duals : Duals) : ∀ (buf : List Arrival) (rateRem costRem rev : ℚ),
    replay duals buf rateRem costRem rev
      = sumFrom rev (countedValues buf (counted duals buf rateRem costRem)) := by
  intro buf
  induction buf with
  | nil => exact fun _ _ _ => rfl
  | cons a buf ih =>
    intro rateRem costRem rev
    rw [replay, counted]
    split_ifs with h
    · rw [ih]
      rfl
    · rw [ih]
      rfl

/-! ### Two counters -/

/-- The costs that a budget takes, of those that come: every one that fits in what is left. -/
def taken : ℚ → List ℚ → List ℚ
  | _, [] => []
  | budget, cost :: costs =>
    if cost ≤ budget then cost :: taken (fl (budget - cost)) costs else taken budget costs

/-- What is left of the budget then. -/
def remaining : ℚ → List ℚ → ℚ
  | budget, [] => budget
  | budget, cost :: costs =>
    if cost ≤ budget then remaining (fl (budget - cost)) costs else remaining budget costs

/-- With `used` added up so far and `left` over: of the costs that come, each fits in what is left
exactly when it is a valid cost, and what is used and it are within the limit. -/
def SameFit (limit : ℚ) : ℚ → ℚ → List ℚ → Prop
  | _, _, [] => True
  | used, left, cost :: costs =>
    (cost ≤ left ↔ requireCost cost = .ok () ∧ fl (used + cost) ≤ limit) ∧
      if cost ≤ left then SameFit limit (fl (used + cost)) (fl (left - cost)) costs
      else SameFit limit used left costs

instance SameFit.decidable (limit : ℚ) : ∀ (used left : ℚ) (costs : List ℚ),
    Decidable (SameFit limit used left costs)
  | _, _, [] => inferInstanceAs (Decidable True)
  | used, left, cost :: costs => by
    have := SameFit.decidable limit (fl (used + cost)) (fl (left - cost)) costs
    have := SameFit.decidable limit used left costs
    exact inferInstanceAs (Decidable (_ ∧ ite _ _ _))

/-- An arrival clears its bid. -/
def Clears (cfg : Admitter) (a : Arrival) : Prop :=
  a.value ≥ fl (cfg.priceRate + fl (cfg.priceCost * a.cost))

instance (cfg : Admitter) (a : Arrival) : Decidable (Clears cfg a) :=
  inferInstanceAs (Decidable (_ ≤ _))

/-- The costs of the arrivals that clear their bids. -/
def clearing (cfg : Admitter) (buf : List Arrival) : List ℚ :=
  (buf.filter fun a => Clears cfg a).map Arrival.cost

/-- What two counters admit: the rate is debited first. -/
def admits (cfg : Admitter) : List Arrival → ℚ → ℚ → List Bool
  | [], _, _ => []
  | a :: buf, rateCount, costCount =>
    if Clears cfg a ∧ fl (rateCount + 1) ≤ cfg.rate.limit then
      if requireCost a.cost = .ok () ∧ fl (costCount + a.cost) ≤ cfg.cost.limit then
        true :: admits cfg buf (fl (rateCount + 1)) (fl (costCount + a.cost))
      else false :: admits cfg buf (fl (rateCount + 1)) costCount
    else false :: admits cfg buf rateCount costCount

/-- Of the first `R` costs, those that fit in what is left of `C` are those that a counter of `C`
admits, and either `R` of them fit, or none of the later costs fits in what those leave. -/
def Agree (R : ℕ) (C : ℚ) (costs : List ℚ) : Prop :=
  SameFit C 0 C (costs.take R) ∧
    ((taken C (costs.take R)).length = R ∨
      ∀ cost ∈ costs.drop R, remaining C (costs.take R) < cost)

instance Agree.decidable (R : ℕ) (C : ℚ) (costs : List ℚ) : Decidable (Agree R C costs) :=
  inferInstanceAs (Decidable (_ ∧ _))

/-! ### A fixed window within a window -/

/-- The instants are of the window that starts at `start`: what is counted at one of them is kept
past the later ones. -/
structure Within (windowMs start : ℚ) (instants : List ℚ) : Prop where
  startOf_eq : ∀ t ∈ instants, startOf windowMs t = start
  kept : instants.Pairwise fun s t => t < fl (s + max 1 (fl (endOf windowMs s - s)))

instance Within.decidable (windowMs start : ℚ) (instants : List ℚ) :
    Decidable (Within windowMs start instants) :=
  decidable_of_iff ((∀ t ∈ instants, startOf windowMs t = start) ∧
      instants.Pairwise fun s t => t < fl (s + max 1 (fl (endOf windowMs s - s))))
    ⟨fun ⟨h, h'⟩ => ⟨h, h'⟩, fun ⟨h, h'⟩ => ⟨h, h'⟩⟩

theorem Within.tail {windowMs start now : ℚ} {instants : List ℚ}
    (h : Within windowMs start (now :: instants)) : Within windowMs start instants :=
  ⟨fun t ht => h.startOf_eq t (List.mem_cons_of_mem _ ht), h.kept.of_cons⟩

/-- **Instants of whole milliseconds are of one window** when they are within its bounds. -/
theorem within_of_wholeAt {windowMs start : ℚ} {instants : List ℚ} (hwindow : 0 < windowMs)
    (hwhole : ∀ t ∈ instants, WholeAt windowMs t)
    (hstart : ∀ t ∈ instants, AlignedWindow.alignedStart windowMs t = start) :
    Within windowMs start instants := by
  refine ⟨fun t ht => ((hwhole t ht).startOf_eq hwindow).trans (hstart t ht),
    List.pairwise_of_forall_mem_list fun s hs t ht => ?_⟩
  have hend := (hwhole s hs).endOf_eq hwindow
  have hlt : t < endOf windowMs s := by
    rw [hend, hstart s hs, ← hstart t ht]
    exact AlignedWindow.lt_alignedStart_add hwindow
  have hwait : fl (endOf windowMs s - s) = endOf windowMs s - s := by
    have hle : AlignedWindow.alignedStart windowMs s ≤ s := AlignedWindow.alignedStart_le hwindow
    have hnow : s < AlignedWindow.alignedStart windowMs s + windowMs :=
      AlignedWindow.lt_alignedStart_add hwindow
    have hsmall := (hwhole s hs).small
    have hfloor : IsWhole (AlignedWindow.alignedStart windowMs s) :=
      (isWhole_intCast _).mul (hwhole s hs).width
    rw [hend]
    refine ((hfloor.add (hwhole s hs).width).sub (hwhole s hs).instant).fl_eq ?_
    rw [abs_of_pos (by linarith)]
    linarith [abs_nonneg s]
  calc t < endOf windowMs s := hlt
    _ = fl (endOf windowMs s) := (fl_fl _).symm
    _ ≤ fl (s + max 1 (fl (endOf windowMs s - s))) := by
      rw [hwait]
      exact Rounding.mono (by linarith [le_max_right 1 (endOf windowMs s - s)])

/-- The window that starts at `w` has `n` units of `key` counted, as found at any of them. -/
def Holds (pre : Option String) (key : String) (w n : ℚ)
    (e : Entries FixedWindow.State) (instants : List ℚ) : Prop :=
  ∀ now ∈ instants, FixedWindow.countIn (e.pending (prefixer pre key) now) w = n

variable {cfg : FixedWindow.Config} {pre : Option String} {key : String} {w n cost now : ℚ}
  {e : Entries FixedWindow.State} {instants : List ℚ}

omit [Rounding] in
theorem holds_empty (pre : Option String) (key : String) (w : ℚ)
    (instants : List ℚ) : Holds pre key w 0 .empty instants := fun _ _ => rfl

omit [Rounding] in
theorem Holds.tail (h : Holds pre key w n e (now :: instants)) :
    Holds pre key w n e instants := fun t ht => h t (List.mem_cons_of_mem _ ht)

/-- A check within the window that fits is counted. -/
theorem Holds.admits (h : Holds pre key w n e (now :: instants))
    (hwithin : Within cfg.windowMs w (now :: instants)) (hcost : requireCost cost = .ok ())
    (hfits : fl (n + cost) ≤ cfg.limit) :
    ∃ e' d, Limiter.check (FixedWindow.fixedWindow cfg) pre e key cost now = (e', .ok d) ∧
      d.allowed = true ∧ Holds pre key w (fl (n + cost)) e' instants := by
  have hstart := hwithin.startOf_eq now List.mem_cons_self
  have hcount := h now List.mem_cons_self
  have hout : (FixedWindow.fixedWindow cfg).check (e.pending (prefixer pre key) now) now cost
      = ⟨some ⟨w, fl (n + cost)⟩, ⟨true, cfg.limit, max 0 ⌊fl (cfg.limit - fl (n + cost))⌋,
        ⌈endOf cfg.windowMs now⌉, 0⟩, max 1 (fl (endOf cfg.windowMs now - now)), true⟩ := by
    show FixedWindow.check _ _ _ _ = _
    rw [FixedWindow.check, hstart, hcount, if_pos hfits, endOf, hstart]
  refine ⟨_, _, Limiter.check_of_requireCost hcost, by rw [hout], fun t ht => ?_⟩
  rw [Entries.pending_applySync (s := ⟨w, fl (n + cost)⟩) (by rw [hout]) (by rw [hout]), hout]
  dsimp only
  have hlive : ¬ fl (now + max 0 (max 1 (fl (endOf cfg.windowMs now - now)))) ≤ t := by
    rw [max_eq_right (zero_le_one.trans (le_max_left _ _)), not_le]
    exact List.rel_of_pairwise_cons hwithin.kept ht
  rw [if_neg hlive]
  exact if_pos rfl

/-- One that does not fit leaves the store as it is. -/
theorem Holds.deny (h : Holds pre key w n e (now :: instants))
    (hwithin : Within cfg.windowMs w (now :: instants)) (hcost : requireCost cost = .ok ())
    (hfits : ¬ fl (n + cost) ≤ cfg.limit) :
    ∃ d, Limiter.check (FixedWindow.fixedWindow cfg) pre e key cost now = (e, .ok d) ∧
      d.allowed = false := by
  have hdenied : (FixedWindow.check cfg (e.pending (prefixer pre key) now) now cost).result.allowed
      = false := by
    rw [FixedWindow.denied_iff, hwithin.startOf_eq now List.mem_cons_self,
      h now List.mem_cons_self]
    exact not_le.mp hfits
  refine ⟨_, ?_, hdenied⟩
  rw [Limiter.check_of_requireCost hcost]
  exact congrArg (fun e' => (e', _))
    (Entries.applySync_of_not_persist (FixedWindow.keeps cfg _ now cost hdenied))

/-- A check that is refused for its cost leaves the store as it is. -/
theorem check_refused {err : CostError} (hcost : requireCost cost = .error err) :
    Limiter.check (FixedWindow.fixedWindow cfg) pre e key cost now = (e, .error err) := by
  rw [Limiter.check, hcost]

/-! ### Live is two counters -/

variable {s : Stores} {opts : AdmitOptions} {ax : Admitter}

omit [Rounding] in
theorem requireCost_one : requireCost 1 = .ok () := by decide +kernel

theorem admitSync_priced_out (h : ¬ opts.value ≥ bid ax.duals opts.cost opts.hold) :
    (admitSync ax s opts now).1 = s ∧ admitted (admitSync ax s opts now).2 = false := by
  unfold admitSync
  rw [if_neg h]
  exact ⟨rfl, rfl⟩

/-- A denial of the rate axis. -/
theorem admitSync_rate_denies (h : opts.value ≥ bid ax.duals opts.cost opts.hold)
    {e : Entries FixedWindow.State} {d : Decision}
    (hrate : Limiter.check (FixedWindow.fixedWindow ax.rate) ax.ratePrefix s.rate opts.key 1 now
      = (e, .ok d)) (hd : d.allowed = false) :
    (admitSync ax s opts now).1 = ⟨e, s.cost⟩ ∧ admitted (admitSync ax s opts now).2 = false := by
  unfold admitSync
  dsimp only
  rw [if_pos h, hrate]
  dsimp only
  rw [if_pos hd]
  exact ⟨rfl, by simp [admitted, denyResult, combineSnapshot, combineDecisions, hd]⟩

/-- What the cost axis says once the rate axis has admitted. -/
theorem admitSync_rate_admits (h : opts.value ≥ bid ax.duals opts.cost opts.hold)
    {e : Entries FixedWindow.State} {d : Decision}
    (hrate : Limiter.check (FixedWindow.fixedWindow ax.rate) ax.ratePrefix s.rate opts.key 1 now
      = (e, .ok d)) (hd : d.allowed = true)
    {e' : Entries FixedWindow.State} {r : Except CostError Decision}
    (hcost : Limiter.check (FixedWindow.fixedWindow ax.cost) ax.costPrefix s.cost opts.key opts.cost
      now = (e', r)) :
    (admitSync ax s opts now).1 = ⟨e, e'⟩ ∧
      (admitted (admitSync ax s opts now).2 = true ↔ ∃ d', r = .ok d' ∧ d'.allowed = true) := by
  unfold admitSync
  dsimp only
  rw [if_pos h, hrate]
  dsimp only
  rw [hd, if_neg (by decide), hcost]
  cases r with
  | error err => exact ⟨rfl, by simp [admitted]⟩
  | ok d' =>
    dsimp only
    split_ifs with hd'
    · exact ⟨rfl, by simp [admitted, denyResult, combineSnapshot, combineDecisions, hd']⟩
    · rw [Bool.not_eq_false] at hd'
      refine ⟨rfl, ?_⟩
      simp [admitted, finalize, combineSnapshot, combineDecisions, hd, hd', allowFull]

/-- **Within a window, live is two counters.** -/
theorem live_eq_admits (ax : Admitter) (key : String) {wr wc : ℚ} :
    ∀ (arrivals : List (Arrival × ℚ)) (s : Stores) (rateCount costCount : ℚ),
      Within ax.rate.windowMs wr (arrivals.map Prod.snd) →
      Within ax.cost.windowMs wc (arrivals.map Prod.snd) →
      Holds ax.ratePrefix key wr rateCount s.rate (arrivals.map Prod.snd) →
      Holds ax.costPrefix key wc costCount s.cost (arrivals.map Prod.snd) →
        live ax key s arrivals = admits ax (arrivals.map Prod.fst) rateCount costCount := by
  intro arrivals
  induction arrivals with
  | nil => exact fun _ _ _ _ _ _ _ => rfl
  | cons p arrivals ih =>
    obtain ⟨a, now⟩ := p
    intro s rateCount costCount hwr hwc hrate hcost
    rw [List.map_cons] at hwr hwc hrate hcost
    rw [live, List.map_cons, admits]
    dsimp only
    by_cases hclears : Clears ax a
    · by_cases hroom : fl (rateCount + 1) ≤ ax.rate.limit
      · -- The rate axis admits, and counts a unit more whatever the cost axis says.
        obtain ⟨e, d, hd, hallowed, hrate'⟩ := hrate.admits hwr requireCost_one hroom
        rw [if_pos ⟨hclears, hroom⟩]
        cases hvalid : requireCost a.cost with
        | error err =>
          obtain ⟨hstores, hdecision⟩ := @admitSync_rate_admits _ _ _
            ⟨key, a.cost, a.value, 0⟩ _ hclears _ _ hd hallowed _ _ (check_refused hvalid)
          rw [if_neg (by simp), hstores, ih ⟨e, s.cost⟩ _ _ hwr.tail hwc.tail hrate' hcost.tail]
          congr 1
          simpa using hdecision
        | ok u =>
          by_cases hfits : fl (costCount + a.cost) ≤ ax.cost.limit
          · obtain ⟨e', d', hd', hallowed', hcost'⟩ := hcost.admits hwc hvalid hfits
            obtain ⟨hstores, hdecision⟩ := @admitSync_rate_admits _ _ _
              ⟨key, a.cost, a.value, 0⟩ _ hclears _ _ hd hallowed _ _ hd'
            rw [if_pos ⟨rfl, hfits⟩, hstores,
              ih ⟨e, e'⟩ _ _ hwr.tail hwc.tail hrate' hcost']
            congr 1
            exact hdecision.mpr ⟨d', rfl, hallowed'⟩
          · obtain ⟨d', hd', hdenied⟩ := hcost.deny hwc hvalid hfits
            obtain ⟨hstores, hdecision⟩ := @admitSync_rate_admits _ _ _
              ⟨key, a.cost, a.value, 0⟩ _ hclears _ _ hd hallowed _ _ hd'
            rw [if_neg (fun h => hfits h.2), hstores,
              ih ⟨e, s.cost⟩ _ _ hwr.tail hwc.tail hrate' hcost.tail]
            congr 1
            simpa [hdenied] using hdecision
      · obtain ⟨d, hd, hdenied⟩ := hrate.deny hwr requireCost_one hroom
        obtain ⟨hstores, hdecision⟩ := @admitSync_rate_denies _ _ _ ⟨key, a.cost, a.value, 0⟩
          _ hclears _ _ hd hdenied
        rw [if_neg (fun h => hroom h.2), hstores, hdecision,
          ih s _ _ hwr.tail hwc.tail hrate.tail hcost.tail]
    · obtain ⟨hstores, hdecision⟩ := @admitSync_priced_out _ now s
        ⟨key, a.cost, a.value, 0⟩ ax hclears
      rw [if_neg (fun h => hclears h.1), hstores, hdecision,
        ih s _ _ hwr.tail hwc.tail hrate.tail hcost.tail]

/-! ### The rate -/

/-- What is left of a budget of `R` after `j` units. -/
def rateLeft (R : ℚ) : ℕ → ℚ
  | 0 => R
  | j + 1 => fl (rateLeft R j - 1)

theorem rateLeft_natCast {R : ℕ} (hR : R ≤ 2 ^ 53) : ∀ {j : ℕ}, j ≤ R →
    rateLeft R j = (R - j : ℕ) := by
  intro j
  induction j with
  | zero => exact fun _ => rfl
  | succ j ih =>
    intro hj
    have hprev : (R - j : ℕ) = (R - (j + 1) : ℕ) + 1 := by omega
    rw [rateLeft, ih (by omega), hprev, Nat.cast_add_one, add_sub_cancel_right]
    exact fl_natCast (by omega)

theorem rateLeft_mono {R R' : ℚ} (h : R ≤ R') : ∀ j, rateLeft R j ≤ rateLeft R' j := by
  intro j
  induction j with
  | zero => exact h
  | succ j ih => exact Rounding.mono (sub_le_sub_right ih 1)

/-- **A unit is left until `R` are used**: a budget past 53 bits outlasts any array. -/
theorem one_le_rateLeft_iff {R j : ℕ} (hj : j < 2 ^ 32) (hle : j ≤ R) :
    1 ≤ rateLeft R j ↔ j < R := by
  rcases le_or_gt R (2 ^ 53) with hR | hR
  · rw [rateLeft_natCast hR hle, Nat.one_le_cast]
    omega
  · have hlong : ((2 ^ 53 : ℕ) : ℚ) ≤ R := by exact_mod_cast hR.le
    have hone : (1 : ℚ) ≤ rateLeft (2 ^ 53 : ℕ) j := by
      rw [rateLeft_natCast le_rfl (by omega), Nat.one_le_cast]
      omega
    exact iff_of_true (hone.trans (rateLeft_mono hlong j)) (by omega)

theorem fl_succ {k : ℕ} (hk : k < 2 ^ 32) : fl (k + 1) = (k + 1 : ℕ) := by
  rw [← Nat.cast_add_one]
  exact fl_natCast (by omega)

/-! ### Where the replay agrees -/

theorem admits_full (ax : Admitter) {R : ℕ} (hR : ax.rate.limit = R) (hfull : R < 2 ^ 32)
    (costCount : ℚ) : ∀ buf : List Arrival,
    admits ax buf R costCount = List.replicate buf.length false := by
  intro buf
  induction buf with
  | nil => rfl
  | cons a buf ih =>
    have hroom : ¬ fl ((R : ℚ) + 1) ≤ ax.rate.limit := by
      rw [fl_succ hfull, hR, Nat.cast_le]
      omega
    rw [admits, if_neg (fun h => hroom h.2), ih, List.length_cons, List.replicate_succ]

/-- The replay counts none exactly when the rate is used up, or no cost fits. -/
theorem counted_eq_replicate_iff (ax : Admitter) (rateRem costRem : ℚ) :
    ∀ buf : List Arrival, counted ax.duals buf rateRem costRem = List.replicate buf.length false ↔
      ¬ 1 ≤ rateRem ∨ ∀ cost ∈ clearing ax buf, costRem < cost := by
  intro buf
  induction buf with
  | nil => simp [counted, clearing]
  | cons a buf ih =>
    have hbid : a.value ≥ fl (ax.duals.rate + fl (ax.duals.cost * a.cost)) ↔ Clears ax a := Iff.rfl
    rw [counted, List.length_cons, List.replicate_succ]
    simp only [hbid, ge_iff_le]
    by_cases hclears : Clears ax a
    · have hcons : clearing ax (a :: buf) = a.cost :: clearing ax buf := by
        simp [clearing, hclears]
      rw [hcons, List.forall_mem_cons]
      split_ifs with hfits
      · simp [hfits.1, not_lt.mpr hfits.2.1]
      · rw [List.cons.injEq, ih]
        have hnot : ¬ 1 ≤ rateRem ∨ costRem < a.cost := by
          by_contra hboth
          rw [not_or, not_not, not_lt] at hboth
          exact hfits ⟨hboth.1, hboth.2, hclears⟩
        tauto
    · have hcons : clearing ax (a :: buf) = clearing ax buf := by simp [clearing, hclears]
      rw [hcons, if_neg (fun h => hclears h.2.2), List.cons.injEq, ih]
      simp

/-- The two counters and the replay, once they have agreed so far: live has counted `k` units of the
rate, and the replay, which has counted fewer requests than live has debited, `j`. -/
theorem counted_eq_admits_iff (ax : Admitter) {R : ℕ} (hR : ax.rate.limit = R) :
    ∀ (buf : List Arrival) (j k : ℕ) (used left : ℚ), j ≤ k → k ≤ R → k + buf.length < 2 ^ 32 →
      (counted ax.duals buf (rateLeft R j) left = admits ax buf k used ↔
        SameFit ax.cost.limit used left ((clearing ax buf).take (R - k)) ∧
        (j + (taken left ((clearing ax buf).take (R - k))).length = R ∨
          ∀ cost ∈ (clearing ax buf).drop (R - k),
            remaining left ((clearing ax buf).take (R - k)) < cost)) := by
  intro buf
  induction buf with
  | nil =>
    intro j k used left _ _ _
    simp [counted, admits, clearing, SameFit]
  | cons a buf ih =>
    intro j k used left hjk hk hlength
    rw [List.length_cons] at hlength
    have hone := one_le_rateLeft_iff (R := R) (show j < 2 ^ 32 by omega) (hjk.trans hk)
    rcases hk.eq_or_lt with rfl | hlt
    · -- Live has no unit left, and denies all that come.
      rw [admits_full ax hR (by omega), counted_eq_replicate_iff, hone, Nat.sub_self]
      have hnot : ¬ j < k ↔ j = k := by omega
      simp [SameFit, taken, remaining, hnot]
    · have hroom : fl ((k : ℚ) + 1) ≤ ax.rate.limit := by
        rw [fl_succ (by omega), hR]
        exact_mod_cast hlt
      have hbid : a.value ≥ fl (ax.duals.rate + fl (ax.duals.cost * a.cost)) ↔ Clears ax a :=
        Iff.rfl
      have hpred : R - k = R - (k + 1) + 1 := by omega
      rw [counted, admits]
      simp only [hbid, ge_iff_le, hone.mpr (hjk.trans_lt hlt), hroom, true_and, and_true]
      by_cases hclears : Clears ax a
      · have hcons : clearing ax (a :: buf) = a.cost :: clearing ax buf := by
          simp [clearing, hclears]
        rw [hcons, hpred, List.take_succ_cons, List.drop_succ_cons, SameFit, taken, remaining,
          if_pos hclears, fl_succ (by omega)]
        by_cases hfits : a.cost ≤ left
        · simp only [hfits, hclears, and_self, if_true, true_iff]
          by_cases hadmits : requireCost a.cost = .ok () ∧ fl (used + a.cost) ≤ ax.cost.limit
          · rw [if_pos hadmits, List.cons.injEq, ← rateLeft,
              ih (j + 1) (k + 1) _ _ (by omega) hlt (by omega), List.length_cons]
            simp [hadmits, add_assoc, add_comm 1]
          · rw [if_neg hadmits]
            simp [hadmits]
        · simp only [hfits, false_and, if_false, false_iff]
          by_cases hadmits : requireCost a.cost = .ok () ∧ fl (used + a.cost) ≤ ax.cost.limit
          · rw [if_pos hadmits]
            simp [hadmits]
          · rw [if_neg hadmits, List.cons.injEq,
              ih j (k + 1) _ _ (by omega) hlt (by omega)]
            simp [hadmits]
      · have hcons : clearing ax (a :: buf) = clearing ax buf := by simp [clearing, hclears]
        rw [hcons, if_neg (fun h => hclears h.2), if_neg hclears, List.cons.injEq,
          ih j k used left hjk hk (by omega)]
        simp

/-- **Whole costs fit the same when they are valid**: sums of up to 53 bits are exact. -/
theorem sameFit_iff_of_isWhole {limit : ℚ} (hlimit : limit < 2 ^ 53) (hwhole : IsWhole limit) :
    ∀ {costs : List ℚ} {used left : ℚ}, (∀ cost ∈ costs, IsWhole cost) → IsWhole used →
      IsWhole left → 0 ≤ used → 0 ≤ left → used + left = limit →
      (SameFit limit used left costs ↔ ∀ cost ∈ taken left costs, requireCost cost = .ok ()) := by
  have habs (x : ℚ) (hx : 0 ≤ x) (hle : x ≤ 2 ^ 53) : |x| ≤ 2 ^ 53 := by rwa [abs_of_nonneg hx]
  have h53 : IsWhole (2 ^ 53) := by decide +kernel
  intro costs
  induction costs with
  | nil => simp [SameFit, taken]
  | cons cost costs ih =>
    intro used left hcosts hused hleft hpos hpos' hsum
    rw [List.forall_mem_cons] at hcosts
    rw [SameFit, taken]
    split_ifs with hfits
    · rw [List.forall_mem_cons, iff_true_left hfits]
      by_cases hvalid : requireCost cost = .ok ()
      · have hcost : 0 < cost := pos_of_requireCost hvalid
        have hup : fl (used + cost) = used + cost :=
          (hused.add hcosts.1).fl_eq (habs _ (by linarith) (by linarith))
        have hdown : fl (left - cost) = left - cost :=
          (hleft.sub hcosts.1).fl_eq (habs _ (by linarith) (by linarith))
        rw [hup, hdown, ih hcosts.2 (hused.add hcosts.1) (hleft.sub hcosts.1) (by linarith)
          (by linarith) (by linarith)]
        have hwithin : used + cost ≤ limit := by linarith
        simp [hvalid, hwithin]
      · simp [hvalid]
    · -- one more unit than the limit is not rounded either
      have hover : ¬ fl (used + cost) ≤ limit := by
        have hmore : limit + 1 ≤ used + cost :=
          hwhole.add_one_le (hused.add hcosts.1) (by linarith)
        have hnext : fl (limit + 1) = limit + 1 :=
          (hwhole.add (isWhole_intCast 1)).fl_eq
            (habs _ (by rw [Int.cast_one]; linarith) (hwhole.add_one_le h53 hlimit))
        linarith [Rounding.mono hmore]
      rw [iff_false_left hfits, ih hcosts.2 hused hleft hpos hpos' hsum]
      simp [hover]

/-- **The replay counts what live would admit exactly where they agree**: for arrivals within one
window of either axis. -/
theorem counted_eq_live_iff (ax : Admitter) (key : String) {R : ℕ} (hR : ax.rate.limit = R)
    (arrivals : List (Arrival × ℚ)) (hlength : arrivals.length < 2 ^ 32) {wr wc : ℚ}
    (hrate : Within ax.rate.windowMs wr (arrivals.map Prod.snd))
    (hcost : Within ax.cost.windowMs wc (arrivals.map Prod.snd)) :
    let buf := arrivals.map Prod.fst
    replaySampleRevenue buf ax.duals R ax.cost.limit
        = sumOf (countedValues buf (counted ax.duals buf R ax.cost.limit)) ∧
      (counted ax.duals buf R ax.cost.limit = live ax key .new arrivals ↔
        Agree R ax.cost.limit (clearing ax buf)) := by
  refine ⟨?_, ?_⟩
  · rw [replaySampleRevenue, replay_eq_sum, sumOf]
  · rw [live_eq_admits ax key arrivals .new 0 0 hrate hcost (holds_empty _ _ _ _)
      (holds_empty _ _ _ _)]
    have hiff := counted_eq_admits_iff ax hR (arrivals.map Prod.fst) 0 0 0 ax.cost.limit le_rfl
      (Nat.zero_le R) (by rwa [List.length_map, zero_add])
    rw [Nat.cast_zero, Nat.sub_zero, zero_add] at hiff
    exact hiff

end

theorem cast_budget_pos {n : ℕ} (h : 0 < n) : (0 : ℚ) < n := Nat.cast_pos.mpr h

/-- Windows of a second, a limit for each axis, and prices. -/
def perSecond (R C : ℕ) (hR : 0 < R) (hC : 0 < C) (priceRate priceCost : ℚ) : Admitter where
  rate := ⟨R, 1000, cast_budget_pos hR, second_pos⟩
  ratePrefix := some "rate"
  cost := ⟨C, 1000, cast_budget_pos hC, second_pos⟩
  costPrefix := some "cost"
  priceRate := priceRate
  priceCost := priceCost

/-- Two requests of two, of which the prices turn one away, and one that does not fit. -/
def fourArrivals : List (Arrival × ℚ) :=
  [(⟨2, 10⟩, 100), (⟨2, 1⟩, 150), (⟨3, 10⟩, 200), (⟨1, 10⟩, 999)]

instance (R : ℕ) (C : ℚ) (costs : List ℚ) : Decidable (@Agree doubles R C costs) :=
  @Agree.decidable doubles R C costs

instance (windowMs start : ℚ) (instants : List ℚ) :
    Decidable (@Within doubles windowMs start instants) :=
  @Within.decidable doubles windowMs start instants

theorem counted_eq_live_four :
    let ax := perSecond 3 5 (by decide) (by decide) 1 1
    let buf := fourArrivals.map Prod.fst
    @Agree doubles 3 5 (@clearing doubles ax buf) ∧
      @replaySampleRevenue doubles buf ax.duals 3 ax.cost.limit
        = @sumOf doubles (countedValues buf (@counted doubles ax.duals buf 3 ax.cost.limit)) ∧
      (@counted doubles ax.duals buf 3 ax.cost.limit = @live doubles ax "user" .new fourArrivals ↔
        @Agree doubles 3 ax.cost.limit (@clearing doubles ax buf)) :=
  ⟨by decide +kernel, @counted_eq_live_iff doubles (perSecond 3 5 (by decide) (by decide) 1 1)
    "user" 3 rfl fourArrivals (by decide) 0 0 (by decide +kernel) (by decide +kernel)⟩

/-- A request of two does not fit a cost budget of one, and uses the rate up: live denies the
request of one that follows, and the replay counts it. And of a cost budget of two, costs of 1.6
leave less than 0.4, with which they add up to two. -/
theorem replay_counts_denied :
    (let ax := perSecond 1 1 (by decide) (by decide) 0 0
      let arrivals : List (Arrival × ℚ) := [(⟨2, 10⟩, 0), (⟨1, 10⟩, 1)]
      @counted doubles ax.duals (arrivals.map Prod.fst) 1 ax.cost.limit = [false, true] ∧
        @replaySampleRevenue doubles (arrivals.map Prod.fst) ax.duals 1 ax.cost.limit = 10 ∧
        @live doubles ax "user" .new arrivals = [false, false]) ∧
      let ax := perSecond 2 2 (by decide) (by decide) 0 0
      let arrivals : List (Arrival × ℚ) :=
        [(⟨Double.roundRat (8 / 5), 10⟩, 0), (⟨Double.roundRat (2 / 5), 10⟩, 1)]
      @counted doubles ax.duals (arrivals.map Prod.fst) 2 ax.cost.limit = [true, false] ∧
        @live doubles ax "user" .new arrivals = [true, true] := by
  decide +kernel

end ThrottleKit.SampleReplay
