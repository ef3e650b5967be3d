import ThrottleKit.Algorithms.RetryAfter
import ThrottleKit.Algorithms.SlidingWindowNaive
import ThrottleKit.Core.Limiter

/-!
# What `peek` and `forecast` say about `check`

`peek` says whether a unit would be admitted, `forecast` how many checks of a cost would be, one
after the other at the same instant. Both are written separately from the check they speak of.

A forecast divides what is free by the cost. The checks take the cost one after the other, each step
rounded, and may come to another number; GCRA and the sliding window moreover round down to whole
units before they divide, and the log divides by the cost although it charges whole units.

Where the steps compare as on exact rationals, what a check at a given instant may spend is a *room*
that every admitted check shrinks by the same amount; so as many checks are admitted as that amount
fits in the room. The token bucket, the fixed window and the quota forecast just that. Before the
epoch a sliding window counts nothing, and so never denies what it admitted once.

## Main definitions

* `AdmitsExactly` — how many checks are admitted, one after the other
* `Agrees` — introspection agrees with the checks, and touches nothing
* `Climbs` — whether another check is admitted, by how many were
* `Peekable`, `Peekable.Foretells` — the strategies, and the condition on their steps
* `Peekable.ComparesExactly` — rounding changes no comparison
* `Peekable.WholeUnits` — the condition where it does not

## Main results

* `Climbs.admitsExactly_iff` — the number of checks that are admitted
* `agrees_iff` — introspection agrees with the checks exactly where the forecast is foretold, which
  is where it may round, unless rounding the steps changes a comparison
* `comparesExactly_exact`, `fixedWindow_comparesExactly` — on exact rationals, and in a window of
  whole numbers, it changes none
-/

namespace ThrottleKit

open Lockstep Rounding

/-- What is the same as long as all before it holds fails first at the same place. -/
theorem first_failure_congr {p q : ℕ → Prop} (h : ∀ k, (∀ j < k, p j) → (p k ↔ q k)) {n : ℕ} :
    (∀ k < n, p k) ∧ ¬ p n ↔ (∀ k < n, q k) ∧ ¬ q n := by
  have hfirst : (∀ k < n, p k) ↔ ∀ k < n, q k := by
    constructor
    · exact fun hall k hk => (h k fun j hj => hall j (hj.trans hk)).mp (hall k hk)
    · intro hall k
      induction k using Nat.strong_induction_on with
      | _ k ih => exact fun hk => (h k fun j hj => ih j hj (hj.trans hk)).mpr (hall k hk)
  rw [hfirst]
  exact and_congr_right fun hall => not_congr (h n (hfirst.mpr hall))

section Room

variable {S : Type} {check : Option S → ℚ → ℚ → ApplyOutcome S Decision}

/-- The state after `k` checks at the same instant. -/
def afterChecks (check : Option S → ℚ → ℚ → ApplyOutcome S Decision) (state : Option S)
    (now cost : ℚ) (k : ℕ) : Option S :=
  after (served check) state (List.replicate k ⟨now, cost⟩)

theorem afterChecks_succ (state : Option S) (now cost : ℚ) (k : ℕ) :
    afterChecks check state now cost (k + 1)
      = (served check (afterChecks check state now cost k) ⟨now, cost⟩).1 := by
  rw [afterChecks, List.replicate_succ', after_append]
  rfl

/-- Of consecutive checks at the same instant, the first `n` are admitted and the next is not. -/
def AdmitsExactly (check : Option S → ℚ → ℚ → ApplyOutcome S Decision) (state : Option S)
    (now cost : ℚ) (n : ℕ) : Prop :=
  (∀ k < n, (check (afterChecks check state now cost k) now cost).result.allowed = true) ∧
    (check (afterChecks check state now cost n) now cost).result.allowed = false

/-- Introspection agrees with the checks, and leaves every store as it is. -/
structure Agrees [Rounding] (m : Introspectable S) (state : Option S) (now cost : ℚ) : Prop where
  peek : (m.peek state now).allowed = (m.check state now 1).result.allowed
  untouched : ∀ pre e key, (Limiter.peek m pre e key now).1 = e ∧
    (Limiter.forecast m pre e key cost now).1 = e
  forecast : ∃ n : ℕ, (m.forecast state now cost).spendableNow = n ∧
    AdmitsExactly m.check state now cost n

/-- Another check of `cost` at `now` is admitted after `k` of them were, exactly when `fits k`. -/
def Climbs (check : Option S → ℚ → ℚ → ApplyOutcome S Decision) (state : Option S) (now cost : ℚ)
    (fits : ℕ → Prop) : Prop :=
  ∀ k, (∀ j < k, (check (afterChecks check state now cost j) now cost).result.allowed = true) →
    ((check (afterChecks check state now cost k) now cost).result.allowed = true ↔ fits k)

variable {state : Option S} {now cost : ℚ} {fits : ℕ → Prop} {n : ℕ}

/-- **What each admitted check does to the state says when another is admitted.** -/
theorem Climbs.of_step {I : ℕ → Option S → Prop} (hzero : I 0 state)
    (hstep : ∀ k s, I k s → (check s now cost).result.allowed = true →
      I (k + 1) (served check s ⟨now, cost⟩).1)
    (hfits : ∀ k s, I k s → ((check s now cost).result.allowed = true ↔ fits k)) :
    Climbs check state now cost fits := by
  have hinv : ∀ k, (∀ j < k,
      (check (afterChecks check state now cost j) now cost).result.allowed = true) →
        I k (afterChecks check state now cost k) := by
    intro k
    induction k with
    | zero => exact fun _ => hzero
    | succ k ih =>
      intro hall
      rw [afterChecks_succ]
      exact hstep k _ (ih fun j hj => hall j (Nat.lt_succ_of_lt hj)) (hall k (Nat.lt_succ_self k))
  exact fun k hall => hfits k _ (hinv k hall)

/-- **As many checks are admitted as fit one after the other.** -/
theorem Climbs.admitsExactly_iff (h : Climbs check state now cost fits) :
    AdmitsExactly check state now cost n ↔ (∀ k < n, fits k) ∧ ¬ fits n := by
  rw [AdmitsExactly, ← Bool.not_eq_true]
  exact first_failure_congr h

end Room

/-- Costs of `u` fit in a room as often as it holds them. -/
theorem fits_room_iff {u room : ℚ} (hu : 0 < u) {n : ℕ} :
    ((∀ k < n, ((k : ℚ) + 1) * u ≤ room) ∧ ¬ ((n : ℚ) + 1) * u ≤ room) ↔
      ⌊max 0 room / u⌋ = n := by
  rw [Int.floor_eq_iff, le_div_iff₀ hu, div_lt_iff₀ hu, not_le, Int.cast_natCast]
  constructor
  · rintro ⟨hall, hlast⟩
    refine ⟨?_, max_lt (by positivity) hlast⟩
    cases n with
    | zero => simp
    | succ n =>
      have hn := hall n (Nat.lt_succ_self n)
      push_cast
      exact le_max_of_le_right hn
  · rintro ⟨hle, hlt⟩
    refine ⟨fun k hk => ?_, (le_max_right 0 room).trans_lt hlt⟩
    have hk' : ((k : ℚ) + 1) * u ≤ n * u :=
      mul_le_mul_of_nonneg_right (by exact_mod_cast hk) hu.le
    rcases le_max_iff.mp hle with h0 | hr
    · exact absurd (hk'.trans h0) (not_le.mpr (by positivity))
    · exact hk'.trans hr

/-! ### Rounding -/

/-- Rounding the room down makes no difference when what fits takes no more than whole units. -/
theorem floor_div_floor_eq_iff {x cost : ℚ} (hcost : 0 < cost) :
    ⌊(⌊x⌋ : ℚ) / cost⌋ = ⌊x / cost⌋ ↔ ⌊x / cost⌋ * cost ≤ ⌊x⌋ := by
  rw [← le_div_iff₀ hcost]
  constructor
  · intro h
    rw [← h]
    exact Int.floor_le _
  · intro h
    refine le_antisymm (Int.floor_le_floor ?_) (Int.le_floor.mpr h)
    exact div_le_div_of_nonneg_right (Int.floor_le x) hcost.le

/-- Dividing by less than what is charged makes no difference when what is forecast fits. -/
theorem floor_div_eq_iff {x cost u : ℚ} (hx : 0 ≤ x) (hcost : 0 < cost) (hle : cost ≤ u) :
    ⌊x / cost⌋ = ⌊x / u⌋ ↔ ⌊x / cost⌋ * u ≤ x := by
  have hu := hcost.trans_le hle
  rw [← le_div_iff₀ hu]
  constructor
  · intro h
    rw [h]
    exact Int.floor_le _
  · intro h
    refine le_antisymm (Int.le_floor.mpr h) (Int.floor_le_floor ?_)
    exact div_le_div_of_nonneg_left hx hcost hle

theorem max_zero_floor (x : ℚ) : max 0 ⌊x⌋ = ⌊max 0 x⌋ := by
  rcases le_total 0 x with h | h
  · rw [max_eq_right h, max_eq_right (Int.floor_nonneg.mpr h)]
  · have hfloor : ⌊x⌋ ≤ 0 := by
      have hle : (⌊x⌋ : ℚ) ≤ 0 := (Int.floor_le x).trans h
      exact_mod_cast hle
    rw [max_eq_left h, max_eq_left hfloor, Int.floor_zero]

/-! ### The strategies -/

section Steps

variable [Rounding]

theorem Gcra.fits_iff {cfg : Config} {state : Option ℚ} {now cost : ℚ} :
    (check cfg state now cost).result.allowed = true ↔
      fl (fl (max (state.getD now) now + fl (cfg.T * cost)) - cfg.tau) ≤ now := by
  rw [← not_iff_not, Bool.not_eq_true, denied_iff, not_le]

/-- An admitted check moves the arrival time on. -/
theorem Gcra.served_of_allowed {cfg : Config} {state : Option ℚ} {now cost : ℚ}
    (h : (check cfg state now cost).result.allowed = true) :
    (served (check cfg) state ⟨now, cost⟩).1
      = some (fl (max (state.getD now) now + fl (cfg.T * cost))) := by
  rw [served, check, if_neg (not_lt.mpr (fits_iff.mp h))]
  rfl

/-- An admitted check takes its cost, and nothing is refilled at the same instant. -/
theorem TokenBucket.tokensAt_served {cfg : Config} {state : Option State} {now cost : ℚ}
    (h : (check cfg state now cost).result.allowed = true) :
    tokensAt cfg (served (check cfg) state ⟨now, cost⟩).1 now
      = min cfg.capacity (fl (tokensAt cfg state now - cost)) := by
  have hstate : (served (check cfg) state ⟨now, cost⟩).1
      = some ⟨fl (tokensAt cfg state now - cost), now⟩ := by
    rw [served, check, if_pos (allowed_iff.mp h)]
    rfl
  have hrefill : fl (max 0 (fl (now - now)) * cfg.refillPerMs) = 0 := by
    rw [sub_self, fl_zero, max_self, zero_mul, fl_zero]
  rw [hstate]
  show min cfg.capacity (fl (fl (tokensAt cfg state now - cost)
    + fl (max 0 (fl (now - now)) * cfg.refillPerMs))) = _
  rw [hrefill, add_zero, fl_fl]

theorem FixedWindow.allowed_iff {cfg : Config} {state : Option State} {now cost : ℚ} :
    (check cfg state now cost).result.allowed = true ↔
      fl (countIn state (startOf cfg.windowMs now) + cost) ≤ cfg.limit := by
  rw [← not_iff_not, Bool.not_eq_true, denied_iff, not_le]

/-- An admitted check is counted in its window. -/
theorem FixedWindow.countIn_served {cfg : Config} {state : Option State} {now cost : ℚ}
    (h : (check cfg state now cost).result.allowed = true) :
    countIn (served (check cfg) state ⟨now, cost⟩).1 (startOf cfg.windowMs now)
      = fl (countIn state (startOf cfg.windowMs now) + cost) := by
  rw [served, check, if_pos (allowed_iff.mp h)]
  exact if_pos rfl

theorem Quota.allowed_iff {cfg : Config} {state : Option State} {now cost : ℚ} :
    (check cfg state now cost).result.allowed = true ↔
      fl (countIn state (cfg.resetCadence.bounds now).start + cost) ≤ cfg.limit := by
  rw [check]
  dsimp only
  split <;> simp_all

/-- An admitted check is counted in its period. -/
theorem Quota.countIn_served {cfg : Config} {state : Option State} {now cost : ℚ}
    (h : (check cfg state now cost).result.allowed = true) :
    countIn (served (check cfg) state ⟨now, cost⟩).1 (cfg.resetCadence.bounds now).start
      = fl (countIn state (cfg.resetCadence.bounds now).start + cost) := by
  rw [served, check, if_pos (allowed_iff.mp h)]
  exact if_pos rfl

theorem SlidingWindowLog.allowed_iff {cfg : Config} {state : Option (List ℚ)} {now cost : ℚ} :
    (check cfg state now cost).result.allowed = true ↔
      fl ((survivors cfg state now).length + ⌈cost⌉) ≤ cfg.limit := by
  rw [check]
  dsimp only
  split <;> simp_all

/-- A stamp of `now` is kept: the head of the log is, or the window is not lost in rounding. -/
def SlidingWindowLog.Keeps (cfg : Config) (state : Option (List ℚ)) (now : ℚ) : Prop :=
  survivors cfg state now ≠ [] ∨ fl (now - cfg.windowMs) < now

instance (cfg : SlidingWindowLog.Config) (state : Option (List ℚ)) (now : ℚ) :
    Decidable (SlidingWindowLog.Keeps cfg state now) :=
  inferInstanceAs (Decidable (_ ∨ _))

/-- What is left of a log without stale stamps to which stamps of `now` are appended. -/
theorem SlidingWindowLog.survivors_append (cfg : Config) (state : Option (List ℚ)) (now : ℚ)
    (n : ℕ) : survivors cfg (some (survivors cfg state now ++ List.replicate n now)) now
      = if Keeps cfg state now then survivors cfg state now ++ List.replicate n now else [] := by
  rw [survivors, Option.getD_some]
  split_ifs with hkeeps
  · rw [List.dropWhile_eq_self_iff]
    intro hlen
    rw [decide_eq_true_eq, not_le]
    by_cases hlive : survivors cfg state now = []
    · simp only [hlive, List.nil_append, List.getElem_replicate]
      exact hkeeps.resolve_left (not_not.mpr hlive)
    · have hpos := List.length_pos_iff.mpr hlive
      rw [List.getElem_append_left hpos]
      have hhead := List.dropWhile_get_zero_not
        (fun stamp : ℚ => decide (stamp ≤ fl (now - cfg.windowMs))) (state.getD []) hpos
      exact not_le.mp fun hle => hhead (decide_eq_true hle)
  · rw [Keeps, not_or, not_not, not_lt] at hkeeps
    rw [hkeeps.1, List.nil_append, List.dropWhile_eq_nil_iff]
    intro stamp hstamp
    rw [List.eq_of_mem_replicate hstamp]
    exact decide_eq_true hkeeps.2

/-- An admitted check leaves its stamps after those that were live. -/
theorem SlidingWindowLog.survivors_served {cfg : Config} {state : Option (List ℚ)} {now cost : ℚ}
    (h : (check cfg state now cost).result.allowed = true) :
    survivors cfg (served (check cfg) state ⟨now, cost⟩).1 now
      = if Keeps cfg state now
        then survivors cfg state now ++ List.replicate ⌈cost⌉.toNat now else [] := by
  rw [served, check, if_pos (allowed_iff.mp h)]
  exact survivors_append cfg state now _

/-- `cost` added `k` times. -/
def addedUp (count cost : ℚ) : ℕ → ℚ
  | 0 => count
  | k + 1 => fl (addedUp count cost k + cost)

/-- The arrival time after `k` checks. -/
def Gcra.tatAfter (cfg : Config) (tat now cost : ℚ) : ℕ → ℚ
  | 0 => tat
  | k + 1 => fl (max (tatAfter cfg tat now cost k) now + fl (cfg.T * cost))

theorem Gcra.climbs (cfg : Config) (state : Option ℚ) (now cost : ℚ) :
    Climbs (check cfg) state now cost fun k =>
      fl (tatAfter cfg (state.getD now) now cost (k + 1) - cfg.tau) ≤ now := by
  refine .of_step (I := fun k s => s.getD now = tatAfter cfg (state.getD now) now cost k) rfl
    (fun k s hs h => ?_) fun k s hs => ?_
  · rw [served_of_allowed h, Option.getD_some, hs, tatAfter]
  · rw [fits_iff, hs, tatAfter]

/-- The tokens after `k` checks. -/
def TokenBucket.tokensAfter (cfg : Config) (tokens cost : ℚ) : ℕ → ℚ
  | 0 => tokens
  | k + 1 => min cfg.capacity (fl (tokensAfter cfg tokens cost k - cost))

theorem TokenBucket.climbs (cfg : Config) (state : Option State) (now cost : ℚ) :
    Climbs (check cfg) state now cost fun k =>
      cost ≤ tokensAfter cfg (tokensAt cfg state now) cost k := by
  refine .of_step
    (I := fun k s => tokensAt cfg s now = tokensAfter cfg (tokensAt cfg state now) cost k) rfl
    (fun k s hs h => ?_) fun k s hs => ?_
  · rw [tokensAt_served h, hs, tokensAfter]
  · rw [allowed_iff, hs]

/-- A bucket that checks have left is not overdrawn. -/
theorem TokenBucket.tokensAt_nonneg (cfg : Config) (calls : List Call) (now : ℚ) :
    0 ≤ tokensAt cfg (after (served (check cfg)) none calls) now := by
  have htokens : ∀ s ∈ after (served (check cfg)) none calls, 0 ≤ s.tokens := by
    refine after_invariant (I := fun state : Option State => ∀ s ∈ state, 0 ≤ s.tokens) ?_ calls
      (by simp)
    intro state call h
    rw [served]
    dsimp only
    split
    · rename_i hpersist
      exact fun s hs => (state_of_persist hpersist hs).1
    · exact h
  have hrate : 0 ≤ cfg.refillPerMs :=
    fl_nonneg (div_nonneg cfg.refillPerSec_pos.le second_pos.le)
  refine le_min cfg.capacity_pos.le (fl_nonneg (add_nonneg ?_
    (fl_nonneg (mul_nonneg (le_max_left _ _) hrate))))
  cases hstate : after (served (check cfg)) none calls with
  | none => exact cfg.capacity_pos.le
  | some s => exact htokens s hstate

theorem FixedWindow.climbs (cfg : Config) (state : Option State) (now cost : ℚ) :
    Climbs (check cfg) state now cost fun k =>
      addedUp (countIn state (startOf cfg.windowMs now)) cost (k + 1) ≤ cfg.limit := by
  refine .of_step (I := fun k s => countIn s (startOf cfg.windowMs now)
    = addedUp (countIn state (startOf cfg.windowMs now)) cost k) rfl (fun k s hs h => ?_)
    fun k s hs => ?_
  · rw [countIn_served h, hs, addedUp]
  · rw [allowed_iff, hs, addedUp]

theorem Quota.climbs (cfg : Config) (state : Option State) (now cost : ℚ) :
    Climbs (check cfg) state now cost fun k =>
      addedUp (countIn state (cfg.resetCadence.bounds now).start) cost (k + 1) ≤ cfg.limit := by
  refine .of_step (I := fun k s => countIn s (cfg.resetCadence.bounds now).start
    = addedUp (countIn state (cfg.resetCadence.bounds now).start) cost k) rfl (fun k s hs h => ?_)
    fun k s hs => ?_
  · rw [countIn_served h, hs, addedUp]
  · rw [allowed_iff, hs, addedUp]

/-- The stamps that are live after `k` checks. -/
def SlidingWindowLog.liveAfter (cfg : Config) (state : Option (List ℚ)) (now cost : ℚ) (k : ℕ) :
    List ℚ :=
  if Keeps cfg state now then survivors cfg state now ++ List.replicate (k * ⌈cost⌉.toNat) now
  else []

theorem SlidingWindowLog.climbs (cfg : Config) (state : Option (List ℚ)) (now cost : ℚ) :
    Climbs (check cfg) state now cost fun k =>
      fl ((liveAfter cfg state now cost k).length + ⌈cost⌉) ≤ cfg.limit := by
  refine .of_step (I := fun k s => survivors cfg s now = liveAfter cfg state now cost k) ?_
    (fun k s hs h => ?_) fun k s hs => ?_
  · rw [liveAfter, zero_mul, List.replicate_zero, List.append_nil]
    split_ifs with hkeeps
    · rfl
    · exact not_not.mp (not_or.mp hkeeps).1
  · have hkeeps : Keeps cfg s now ↔ Keeps cfg state now := by
      rw [Keeps, hs, liveAfter]
      split_ifs with hkeeps
      · refine iff_of_true ?_ hkeeps
        rcases hkeeps with hlive | hlt
        · exact .inl (by simp [hlive])
        · exact .inr hlt
      · refine iff_of_false ?_ hkeeps
        rintro (hlive | hlt)
        · exact hlive rfl
        · exact hkeeps (.inr hlt)
    rw [survivors_served h, hs, liveAfter, liveAfter]
    simp only [hkeeps]
    split_ifs with hk
    · rw [List.append_assoc, ← List.replicate_add, Nat.succ_mul]
    · rfl
  · rw [allowed_iff, hs]

namespace SlidingWindow

variable {cfg : Config}

/-- What a written ring counts for the ticks before its own that are in the window. -/
theorem countAt_bumped_of_lt (ring : State) (c : ℤ) (cost : ℚ) {idx : ℤ}
    (hlo : c - cfg.buckets ≤ idx) (hlt : idx < c) :
    countAt cfg (bumped cfg ring c cost) idx = countAt cfg ring idx := by
  rcases lt_or_ge idx 0 with hneg | hnonneg
  · rw [countAt_of_neg hneg, countAt_of_neg hneg]
  · rw [countAt_bumped ring c cost hnonneg]
    refine if_neg fun hslot => hlt.ne ?_
    refine eq_of_dvd_slots hlo hlt.le (Int.dvd_of_emod_eq_zero ?_)
    rw [Int.tmod_eq_emod_of_nonneg hnonneg,
      Int.tmod_eq_emod_of_nonneg (hnonneg.trans hlt.le)] at hslot
    rw [Int.sub_emod, ← hslot, sub_self, Int.zero_emod]

/-- The count of the last `S` ticks but that of `now`. -/
def before (cfg : Config) (ring : State) (now : ℚ) : ℚ :=
  sumOf ((List.range (cfg.buckets - 1)).map fun (k : ℕ) =>
    countAt cfg ring (tick cfg now - cfg.buckets + 1 + k))

theorem full_eq (ring : State) (now : ℚ) :
    full cfg ring now = fl (before cfg ring now + countAt cfg ring (tick cfg now)) := by
  obtain ⟨S, hS⟩ : ∃ S, cfg.buckets = S + 1 := Nat.exists_eq_add_of_le' cfg.one_le_buckets
  have hlast : tick cfg now - (S + 1 : ℕ) + 1 + S = tick cfg now := by
    push_cast
    ring
  rw [full, before, hS, List.range_succ, List.map_append, List.map_singleton, hlast,
    Nat.add_sub_cancel, sumOf, sumFrom, List.foldl_append]
  rfl

/-- The ring counts `n` for the tick of `now`, and for earlier ones what that of `state` does. -/
structure HoldsAt (cfg : Config) (state : Option State) (now n : ℚ) (s : Option State) : Prop where
  own : countAt cfg (s.getD .empty) (tick cfg now) = n
  earlier : ∀ idx, tick cfg now - cfg.buckets ≤ idx → idx < tick cfg now →
    countAt cfg (s.getD .empty) idx = countAt cfg (state.getD .empty) idx

/-- The estimate when the ring counts `n` for the tick of `now`. -/
def estimateWith (cfg : Config) (state : Option State) (now n : ℚ) : ℚ :=
  fl (fl (before cfg (state.getD .empty) now + n)
    + fl (oldest cfg (state.getD .empty) now * weight cfg now))

theorem HoldsAt.estimate_eq {state s : Option State} {now n : ℚ} (h : HoldsAt cfg state now n s) :
    estimate cfg s now = estimateWith cfg state now n := by
  have hS : 0 < (cfg.buckets : ℤ) := by exact_mod_cast cfg.one_le_buckets
  have hbefore : before cfg (s.getD .empty) now = before cfg (state.getD .empty) now := by
    rw [before, before]
    congr 1
    refine List.map_congr_left fun k hk => ?_
    have hkS := List.mem_range.mp hk
    exact h.earlier _ (by omega) (by omega)
  rw [estimate, full_eq, h.own, hbefore, oldest, h.earlier _ le_rfl (sub_lt_self _ hS)]
  rfl

theorem allowed_iff {state : Option State} {now cost : ℚ} :
    (check cfg state now cost).result.allowed = true ↔
      fl (estimate cfg state now + cost) ≤ cfg.limit := by
  have hresult : (check cfg state now cost).result = decideBy cfg (full cfg (state.getD .empty) now)
      (oldest cfg (state.getD .empty) now) now cost := by
    rw [check]
    split <;> rfl
  rw [hresult, decideBy, estimate]
  dsimp only
  split <;> simp_all

theorem served_of_allowed {state : Option State} {now cost : ℚ}
    (h : (check cfg state now cost).result.allowed = true) :
    (served (check cfg) state ⟨now, cost⟩).1
      = some (bumped cfg (state.getD .empty) (tick cfg now) cost) := by
  have hallowed : (decideBy cfg (full cfg (state.getD .empty) now)
      (oldest cfg (state.getD .empty) now) now cost).allowed = true := by
    rw [check] at h
    split at h <;> assumption
  rw [served, check, if_pos hallowed]
  rfl

/-- The sliding window peeks at what it checks. -/
theorem peek_allowed_iff (state : Option State) (now : ℚ) :
    (peek cfg state now).allowed = true ↔ (check cfg state now 1).result.allowed = true := by
  rw [allowed_iff, peek]
  dsimp only
  split <;> simp_all

/-- What is counted for the tick of `now` after `k` checks; a tick before the epoch counts none. -/
def held (cfg : Config) (state : Option State) (now cost : ℚ) (k : ℕ) : ℚ :=
  if 0 ≤ tick cfg now then addedUp (countAt cfg (state.getD .empty) (tick cfg now)) cost k else 0

theorem climbs (cfg : Config) (state : Option State) (now cost : ℚ) :
    Climbs (check cfg) state now cost fun k =>
      fl (estimateWith cfg state now (held cfg state now cost k) + cost) ≤ cfg.limit := by
  refine .of_step (I := fun k s => HoldsAt cfg state now (held cfg state now cost k) s)
    ⟨?_, fun _ _ _ => rfl⟩ (fun k s hs h => ?_) fun k s hs => ?_
  · rw [held]
    split_ifs with hepoch
    · rfl
    · exact countAt_of_neg (not_le.mp hepoch)
  · rw [served_of_allowed h]
    refine ⟨?_, fun idx hlo hlt => ?_⟩
    · rw [Option.getD_some, held]
      split_ifs with hepoch
      · rw [countAt_bumped _ _ _ hepoch, if_pos rfl, if_pos rfl, hs.own, held, if_pos hepoch,
          addedUp]
      · exact countAt_of_neg (not_le.mp hepoch)
    · rw [Option.getD_some, countAt_bumped_of_lt _ _ _ hlo hlt, hs.earlier idx hlo hlt]
  · rw [allowed_iff, hs.estimate_eq]

end SlidingWindow

/-! ### All of them -/

/-- The strategies that offer `peek` and `forecast`. -/
inductive Peekable
  | gcra (cfg : Gcra.Config)
  | tokenBucket (cfg : TokenBucket.Config)
  | fixedWindow (cfg : FixedWindow.Config)
  | slidingWindow (cfg : SlidingWindow.Config)
  | slidingWindowLog (cfg : SlidingWindowLog.Config)
  | quota (cfg : Quota.Config)
  | rollingQuota (cfg : SlidingWindow.Config)

namespace Peekable

omit [Rounding] in
/-- The state of a strategy. -/
abbrev State : Peekable → Type
  | .gcra _ => ℚ
  | .tokenBucket _ => TokenBucket.State
  | .fixedWindow _ => FixedWindow.State
  | .slidingWindow _ => SlidingWindow.State
  | .slidingWindowLog _ => List ℚ
  | .quota _ => Quota.State
  | .rollingQuota _ => SlidingWindow.State

/-- The strategy with its introspection. -/
def strategy : (m : Peekable) → Introspectable m.State
  | .gcra cfg => Gcra.introspectable cfg
  | .tokenBucket cfg => TokenBucket.introspectable cfg
  | .fixedWindow cfg => FixedWindow.introspectable cfg
  | .slidingWindow cfg => SlidingWindow.introspectable cfg
  | .slidingWindowLog cfg => SlidingWindowLog.introspectable cfg
  | .quota cfg => Quota.introspectable cfg
  | .rollingQuota cfg => Quota.rollingIntrospectable cfg

/-- What is free at `now`, in the units that are forecast. -/
def free : (m : Peekable) → Option m.State → ℚ → ℚ
  | .gcra cfg, state, now =>
    (max 0 ⌊fl (fl (cfg.tau - fl (max (state.getD now) now - now)) / cfg.T)⌋ : ℤ)
  | .tokenBucket cfg, state, now => TokenBucket.tokensAt cfg state now
  | .fixedWindow cfg, state, now =>
    max 0 (fl (cfg.limit - FixedWindow.countIn state (startOf cfg.windowMs now)))
  | .slidingWindow cfg, state, now =>
    (max 0 ⌊fl (cfg.limit - SlidingWindow.estimate cfg state now)⌋ : ℤ)
  | .slidingWindowLog cfg, state, now =>
    max 0 (fl (cfg.limit - (SlidingWindowLog.survivors cfg state now).length))
  | .quota cfg, state, now =>
    max 0 (fl (cfg.limit - Quota.countIn state (cfg.resetCadence.bounds now).start))
  | .rollingQuota cfg, state, now =>
    (max 0 ⌊fl (cfg.limit - SlidingWindow.estimate cfg state now)⌋ : ℤ)

/-- When `k` costs have been taken one after the other, another fits. -/
def Fits : (m : Peekable) → Option m.State → ℚ → ℚ → ℕ → Prop
  | .gcra cfg, state, now, cost, k =>
    fl (Gcra.tatAfter cfg (state.getD now) now cost (k + 1) - cfg.tau) ≤ now
  | .tokenBucket cfg, state, now, cost, k =>
    cost ≤ TokenBucket.tokensAfter cfg (TokenBucket.tokensAt cfg state now) cost k
  | .fixedWindow cfg, state, now, cost, k =>
    addedUp (FixedWindow.countIn state (startOf cfg.windowMs now)) cost (k + 1) ≤ cfg.limit
  | .slidingWindow cfg, state, now, cost, k =>
    fl (SlidingWindow.estimateWith cfg state now (SlidingWindow.held cfg state now cost k) + cost)
      ≤ cfg.limit
  | .slidingWindowLog cfg, state, now, cost, k =>
    fl ((SlidingWindowLog.liveAfter cfg state now cost k).length + ⌈cost⌉) ≤ cfg.limit
  | .quota cfg, state, now, cost, k =>
    addedUp (Quota.countIn state (cfg.resetCadence.bounds now).start) cost (k + 1) ≤ cfg.limit
  | .rollingQuota cfg, state, now, cost, k =>
    fl (SlidingWindow.estimateWith cfg state now (SlidingWindow.held cfg state now cost k) + cost)
      ≤ cfg.limit

theorem climbs (m : Peekable) (state : Option m.State) (now cost : ℚ) :
    Climbs m.strategy.check state now cost (m.Fits state now cost) := by
  cases m with
  | gcra cfg => exact Gcra.climbs cfg state now cost
  | tokenBucket cfg => exact TokenBucket.climbs cfg state now cost
  | fixedWindow cfg => exact FixedWindow.climbs cfg state now cost
  | slidingWindow cfg => exact SlidingWindow.climbs cfg state now cost
  | slidingWindowLog cfg => exact SlidingWindowLog.climbs cfg state now cost
  | quota cfg => exact Quota.climbs cfg state now cost
  | rollingQuota cfg => exact SlidingWindow.climbs cfg state now cost

/-- GCRA peeks at its whole units: they hold one exactly when a check of one is admitted. -/
def UnitKept : (m : Peekable) → Option m.State → ℚ → Prop
  | .gcra cfg, state, now =>
    1 ≤ ⌊fl (fl (cfg.tau - fl (max (state.getD now) now - now)) / cfg.T)⌋ ↔
      fl (fl (max (state.getD now) now + fl (cfg.T * 1)) - cfg.tau) ≤ now
  | _, _, _ => True

/-- The steps of the checks bear the introspection out. -/
structure Foretells (m : Peekable) (state : Option m.State) (now cost : ℚ) : Prop where
  unit : m.UnitKept state now
  fits : ∀ k < ⌊fl (m.free state now / cost)⌋₊, m.Fits state now cost k
  full : ¬ m.Fits state now cost ⌊fl (m.free state now / cost)⌋₊

theorem peek_iff (m : Peekable) (state : Option m.State) (now : ℚ) :
    (m.strategy.peek state now).allowed = (m.strategy.check state now 1).result.allowed ↔
      m.UnitKept state now := by
  rw [Bool.eq_iff_iff]
  cases m with
  | gcra cfg =>
    show ((Gcra.peek cfg state now).allowed = true ↔
      (Gcra.check cfg state now 1).result.allowed = true) ↔ _
    rw [Gcra.fits_iff, Gcra.peek]
    simp [UnitKept]
  | tokenBucket cfg =>
    refine (iff_true_right trivial).mpr ?_
    show (TokenBucket.peek cfg state now).allowed = true ↔
      (TokenBucket.check cfg state now 1).result.allowed = true
    rw [TokenBucket.allowed_iff, TokenBucket.peek]
    exact decide_eq_true_iff
  | fixedWindow cfg =>
    refine (iff_true_right trivial).mpr ?_
    show (FixedWindow.peek cfg state now).allowed = true ↔
      (FixedWindow.check cfg state now 1).result.allowed = true
    rw [FixedWindow.allowed_iff, FixedWindow.peek]
    exact decide_eq_true_iff
  | slidingWindow cfg => exact (iff_true_right trivial).mpr (SlidingWindow.peek_allowed_iff _ _)
  | slidingWindowLog cfg =>
    refine (iff_true_right trivial).mpr ?_
    show (SlidingWindowLog.peek cfg state now).allowed = true ↔
      (SlidingWindowLog.check cfg state now 1).result.allowed = true
    rw [SlidingWindowLog.allowed_iff, Int.ceil_one, Int.cast_one, SlidingWindowLog.peek]
    split <;> simp_all
  | quota cfg =>
    refine (iff_true_right trivial).mpr ?_
    show (Quota.peek cfg state now).allowed = true ↔
      (Quota.check cfg state now 1).result.allowed = true
    rw [Quota.allowed_iff, Quota.peek]
    exact decide_eq_true_iff
  | rollingQuota cfg => exact (iff_true_right trivial).mpr (SlidingWindow.peek_allowed_iff _ _)

omit [Rounding] in
theorem cast_max_nonneg (n : ℤ) : (0 : ℚ) ≤ (max 0 n : ℤ) := by
  exact_mod_cast le_max_left 0 n

theorem free_nonneg (m : Peekable) (calls : List Call) (now : ℚ) :
    0 ≤ m.free (after (served m.strategy.check) none calls) now := by
  cases m with
  | gcra cfg => exact cast_max_nonneg _
  | tokenBucket cfg => exact TokenBucket.tokensAt_nonneg cfg calls now
  | fixedWindow cfg => exact le_max_left _ _
  | slidingWindow cfg => exact cast_max_nonneg _
  | slidingWindowLog cfg => exact le_max_left _ _
  | quota cfg => exact le_max_left _ _
  | rollingQuota cfg => exact cast_max_nonneg _

theorem spendableNow_eq (m : Peekable) (state : Option m.State) (now cost : ℚ) :
    (m.strategy.forecast state now cost).spendableNow = ⌊fl (m.free state now / cost)⌋ := by
  cases m <;> rfl

/-- **A forecast is as many checks as are admitted** exactly when they fit, and no more do. -/
theorem forecast_iff (m : Peekable) {state : Option m.State} {now cost : ℚ} (hcost : 0 < cost)
    (hfree : 0 ≤ m.free state now) :
    (∃ n : ℕ, (m.strategy.forecast state now cost).spendableNow = n ∧
      AdmitsExactly m.strategy.check state now cost n) ↔
      (∀ k < ⌊fl (m.free state now / cost)⌋₊, m.Fits state now cost k) ∧
        ¬ m.Fits state now cost ⌊fl (m.free state now / cost)⌋₊ := by
  have hfloor : (⌊fl (m.free state now / cost)⌋ : ℚ) = ⌊fl (m.free state now / cost)⌋₊ :=
    (natCast_floor_eq_intCast_floor (fl_nonneg (div_nonneg hfree hcost.le))).symm
  rw [spendableNow_eq, hfloor, ← (m.climbs state now cost).admitsExactly_iff]
  simp [eq_comm]

/-- Introspection agrees with the checks exactly where their steps bear it out. -/
theorem agrees_iff_foretells (m : Peekable) (calls : List Call) {now cost : ℚ}
    (hcost : requireCost cost = .ok ()) :
    Agrees m.strategy (after (served m.strategy.check) none calls) now cost ↔
      m.Foretells (after (served m.strategy.check) none calls) now cost := by
  have hfree := m.free_nonneg calls now
  have hforecast := m.forecast_iff (pos_of_requireCost hcost) hfree
  constructor
  · intro h
    obtain ⟨hfits, hfull⟩ := hforecast.mp h.forecast
    exact ⟨(m.peek_iff _ now).mp h.peek, hfits, hfull⟩
  · intro h
    refine ⟨(m.peek_iff _ now).mpr h.unit, fun pre e key => ⟨?_, ?_⟩,
      hforecast.mpr ⟨h.fits, h.full⟩⟩
    · rw [Limiter.peek_eq]
    · exact Limiter.forecast_fst m.strategy pre e key cost now

/-- **Before the epoch** a sliding window counts nothing: what it admits once it always admits. -/
theorem not_foretells_of_tick_neg (cfg : SlidingWindow.Config) {state : Option SlidingWindow.State}
    {now cost : ℚ} (htick : SlidingWindow.tick cfg now < 0)
    (h : (slidingWindow cfg).Fits state now cost 0) :
    ¬ (slidingWindow cfg).Foretells state now cost := by
  intro hforetells
  refine hforetells.full ?_
  rw [Fits, SlidingWindow.held, if_neg (not_le.mpr htick)] at h ⊢
  exact h

/-! ### Without drift -/

/-- What the checks at `now` may spend. -/
def room : (m : Peekable) → Option m.State → ℚ → ℚ
  | .gcra cfg, state, now => (cfg.tau - (max (state.getD now) now - now)) / cfg.T
  | .tokenBucket cfg, state, now => TokenBucket.tokensAt cfg state now
  | .fixedWindow cfg, state, now => cfg.limit - FixedWindow.countIn state (startOf cfg.windowMs now)
  | .slidingWindow cfg, state, now => cfg.limit - SlidingWindow.estimate cfg state now
  | .slidingWindowLog cfg, state, now =>
    cfg.limit - (SlidingWindowLog.survivors cfg state now).length
  | .quota cfg, state, now => cfg.limit - Quota.countIn state (cfg.resetCadence.bounds now).start
  | .rollingQuota cfg, state, now => cfg.limit - SlidingWindow.estimate cfg state now

omit [Rounding] in
/-- What a check takes from it: the log charges whole units. -/
def charge : Peekable → ℚ → ℚ
  | .gcra _, cost => cost
  | .tokenBucket _, cost => cost
  | .fixedWindow _, cost => cost
  | .slidingWindow _, cost => cost
  | .slidingWindowLog _, cost => ⌈cost⌉
  | .quota _, cost => cost
  | .rollingQuota _, cost => cost

omit [Rounding] in
/-- What a forecast divides by the cost: the whole units of the room, or all of it. -/
def units : Peekable → ℚ → ℚ
  | .gcra _, x => ⌊x⌋
  | .tokenBucket _, x => x
  | .fixedWindow _, x => x
  | .slidingWindow _, x => ⌊x⌋
  | .slidingWindowLog _, x => x
  | .quota _, x => x
  | .rollingQuota _, x => ⌊x⌋

/-- No step of the checks or of the introspection compares otherwise than on exact rationals. -/
structure ComparesExactly (m : Peekable) (state : Option m.State) (now cost : ℚ) : Prop where
  unit : m.UnitKept state now
  fits : ∀ k : ℕ, (∀ j < k, m.Fits state now cost j) →
    (m.Fits state now cost k ↔ ((k : ℚ) + 1) * m.charge cost ≤ m.room state now)
  forecast : ⌊fl (m.free state now / cost)⌋ = ⌊m.units (max 0 (m.room state now)) / cost⌋

/-- As many costs as the room holds take no more than what is forecast from. -/
def WholeUnits (m : Peekable) (state : Option m.State) (now cost : ℚ) : Prop :=
  ⌊max 0 (m.room state now) / cost⌋ * m.charge cost ≤ m.units (max 0 (m.room state now))

omit [Rounding] in
theorem floor_units_eq_iff (m : Peekable) {x cost : ℚ} (hx : 0 ≤ x) (hcost : 0 < cost) :
    ⌊x / m.charge cost⌋ = ⌊m.units x / cost⌋ ↔ ⌊x / cost⌋ * m.charge cost ≤ m.units x := by
  have hfloor : (⌊x / cost⌋ : ℚ) * cost ≤ x := (le_div_iff₀ hcost).mp (Int.floor_le _)
  cases m with
  | gcra cfg => exact eq_comm.trans (floor_div_floor_eq_iff hcost)
  | tokenBucket cfg => exact iff_of_true rfl hfloor
  | fixedWindow cfg => exact iff_of_true rfl hfloor
  | slidingWindow cfg => exact eq_comm.trans (floor_div_floor_eq_iff hcost)
  | slidingWindowLog cfg => exact eq_comm.trans (floor_div_eq_iff hx hcost (Int.le_ceil cost))
  | quota cfg => exact iff_of_true rfl hfloor
  | rollingQuota cfg => exact eq_comm.trans (floor_div_floor_eq_iff hcost)

omit [Rounding] in
theorem charge_pos (m : Peekable) {cost : ℚ} (hcost : 0 < cost) : 0 < m.charge cost := by
  have hceil : (0 : ℚ) < ⌈cost⌉ := by exact_mod_cast Int.ceil_pos.mpr hcost
  cases m <;> first | exact hcost | exact hceil

/-- **Where no step compares otherwise, a forecast is foretold exactly where it may round.** -/
theorem foretells_iff_wholeUnits (m : Peekable) {state : Option m.State} {now cost : ℚ}
    (hcost : 0 < cost) (hfree : 0 ≤ m.free state now) (h : m.ComparesExactly state now cost) :
    m.Foretells state now cost ↔ m.WholeUnits state now cost := by
  have hfloor : (⌊fl (m.free state now / cost)⌋₊ : ℤ)
      = ⌊m.units (max 0 (m.room state now)) / cost⌋ := by
    rw [Int.natCast_floor_eq_floor (fl_nonneg (div_nonneg hfree hcost.le)), h.forecast]
  rw [WholeUnits, ← floor_units_eq_iff m (le_max_left _ _) hcost, ← hfloor,
    ← fits_room_iff (m.charge_pos hcost), ← first_failure_congr h.fits]
  exact ⟨fun hf => ⟨hf.fits, hf.full⟩, fun hf => ⟨h.unit, hf.1, hf.2⟩⟩

omit [Rounding] in
/-- Whole costs take whole units. -/
theorem units_natCast (m : Peekable) (x : ℚ) {n : ℕ} (hn : 0 < n) :
    ⌊x / n⌋ * m.charge n ≤ m.units x := by
  have hle : (⌊x / n⌋ : ℚ) * n ≤ x :=
    (le_div_iff₀ (by exact_mod_cast hn)).mp (Int.floor_le _)
  have hwhole : (⌊x / n⌋ : ℚ) * n ≤ ⌊x⌋ := by
    have hmul : ⌊x / n⌋ * n ≤ ⌊x⌋ := Int.le_floor.mpr (by exact_mod_cast hle)
    exact_mod_cast hmul
  have hceil : (⌊x / n⌋ : ℚ) * (⌈(n : ℚ)⌉ : ℤ) ≤ x := by rwa [Int.ceil_natCast, Int.cast_natCast]
  cases m <;> first | exact hle | exact hwhole | exact hceil

/-- **Whole costs are forecast exactly**, where no step compares otherwise. -/
theorem wholeUnits_natCast (m : Peekable) (state : Option m.State) (now : ℚ) {n : ℕ} (hn : 0 < n) :
    m.WholeUnits state now n := m.units_natCast _ hn

/-- **Introspection agrees with the checks exactly where their steps bear it out**: where no step
compares otherwise than on exact rationals, exactly where the forecast may round. -/
theorem agrees_iff (m : Peekable) (calls : List Call) {now cost : ℚ}
    (hcost : requireCost cost = .ok ()) :
    let state := after (served m.strategy.check) none calls
    (Agrees m.strategy state now cost ↔ m.Foretells state now cost) ∧
      (m.ComparesExactly state now cost →
        (Agrees m.strategy state now cost ↔ m.WholeUnits state now cost)) := by
  intro state
  have hagrees : Agrees m.strategy state now cost ↔ m.Foretells state now cost :=
    m.agrees_iff_foretells calls hcost
  refine ⟨hagrees, fun h => ?_⟩
  rw [hagrees]
  exact m.foretells_iff_wholeUnits (pos_of_requireCost hcost) (m.free_nonneg calls now) h

end Peekable

end Steps

/-! ### On exact rationals -/

section Exact

theorem addedUp_exact (count cost : ℚ) (k : ℕ) : addedUp count cost k = count + k * cost := by
  induction k with
  | zero => simp [addedUp]
  | succ k ih =>
    rw [addedUp, fl_exact, ih]
    push_cast
    ring

theorem Gcra.tatAfter_exact (cfg : Config) (tat now : ℚ) {cost : ℚ} (hcost : 0 < cost) (k : ℕ) :
    tatAfter cfg tat now cost (k + 1) = max tat now + (k + 1) * (cfg.T * cost) := by
  induction k with
  | zero => simp [tatAfter]
  | succ k ih =>
    have hinc : 0 < cfg.T * cost := mul_pos cfg.T_pos hcost
    have hlater : now ≤ max tat now + (k + 1) * (cfg.T * cost) :=
      (le_max_right tat now).trans (le_add_of_nonneg_right (by positivity))
    rw [tatAfter, fl_exact, fl_exact, ih, max_eq_left hlater]
    push_cast
    ring

theorem TokenBucket.tokensAfter_exact (cfg : Config) {tokens cost : ℚ} (hcost : 0 < cost)
    (hcap : tokens ≤ cfg.capacity) (k : ℕ) : tokensAfter cfg tokens cost k = tokens - k * cost := by
  induction k with
  | zero => simp [tokensAfter]
  | succ k ih =>
    have hpos : 0 ≤ k * cost := mul_nonneg (Nat.cast_nonneg k) hcost.le
    rw [tokensAfter, fl_exact, ih, min_eq_right (by linarith)]
    push_cast
    ring

theorem SlidingWindowLog.keeps_exact (cfg : Config) (state : Option (List ℚ)) (now : ℚ) :
    Keeps cfg state now := .inr (sub_lt_self now cfg.windowMs_pos)

namespace SlidingWindow

variable {cfg : Config}

theorem tick_nonneg_iff {now : ℚ} : 0 ≤ tick cfg now ↔ 0 ≤ now := by
  rw [tick, fl_exact, Int.floor_nonneg, le_div_iff₀ cfg.w_pos, zero_mul]

theorem estimateWith_add (state : Option State) (now x : ℚ) :
    estimateWith cfg state now (countAt cfg (state.getD .empty) (tick cfg now) + x)
      = estimate cfg state now + x := by
  rw [estimate, full_eq, estimateWith]
  simp only [fl_exact]
  ring

end SlidingWindow

namespace Peekable

theorem comparesExactly_slidingWindow (cfg : SlidingWindow.Config)
    (state : Option SlidingWindow.State) {now : ℚ} (cost : ℚ) (hnow : 0 ≤ now) :
    (slidingWindow cfg).ComparesExactly state now cost := by
  refine ⟨trivial, fun k _ => ?_, ?_⟩
  · rw [Fits, SlidingWindow.held, if_pos (SlidingWindow.tick_nonneg_iff.mpr hnow), addedUp_exact,
      SlidingWindow.estimateWith_add, fl_exact, room, charge]
    constructor <;> intro h <;> linarith
  · rw [room, units, ← max_zero_floor]
    rfl

/-- **On exact rationals every step compares exactly**, from the epoch on. -/
theorem comparesExactly_exact (m : Peekable) {state : Option m.State} {now cost : ℚ}
    (hcost : 0 < cost) (hfree : 0 ≤ m.free state now) (hnow : 0 ≤ now) :
    m.ComparesExactly state now cost := by
  cases m with
  | gcra cfg =>
    have hT := cfg.T_pos
    have hspare (x : ℚ) : max (state.getD now) now + x - cfg.tau ≤ now ↔
        x / cfg.T ≤ (gcra cfg).room state now := by
      rw [room, div_le_div_iff_of_pos_right hT]
      constructor <;> intro h <;> linarith
    refine ⟨?_, fun k _ => ?_, ?_⟩
    · have hone := hspare (cfg.T * 1)
      rw [mul_div_cancel_left₀ _ hT.ne'] at hone
      rw [UnitKept, Int.le_floor, Int.cast_one]
      exact hone.symm
    · rw [Fits, Gcra.tatAfter_exact cfg _ now hcost, fl_exact, hspare, mul_left_comm,
        mul_div_cancel_left₀ _ hT.ne', charge]
    · rw [units, ← max_zero_floor]
      rfl
  | tokenBucket cfg =>
    have hcap : TokenBucket.tokensAt cfg state now ≤ cfg.capacity := min_le_left _ _
    refine ⟨trivial, fun k _ => ?_, ?_⟩
    · rw [Fits, TokenBucket.tokensAfter_exact cfg hcost hcap, room, charge]
      constructor <;> intro h <;> linarith
    · rw [room, units, max_eq_right (show 0 ≤ TokenBucket.tokensAt cfg state now from hfree)]
      rfl
  | fixedWindow cfg =>
    refine ⟨trivial, fun k _ => ?_, rfl⟩
    rw [Fits, addedUp_exact, room, charge]
    push_cast
    constructor <;> intro h <;> linarith
  | slidingWindow cfg => exact comparesExactly_slidingWindow cfg state cost hnow
  | slidingWindowLog cfg =>
    refine ⟨trivial, fun k _ => ?_, rfl⟩
    have hnat : ((⌈cost⌉.toNat : ℕ) : ℚ) = ⌈cost⌉ :=
      SlidingWindowLog.cast_units (Int.ceil_nonneg hcost.le)
    rw [Fits, SlidingWindowLog.liveAfter, if_pos (SlidingWindowLog.keeps_exact cfg state now),
      List.length_append, List.length_replicate, fl_exact, room, charge]
    push_cast
    rw [hnat]
    constructor <;> intro h <;> linarith
  | quota cfg =>
    refine ⟨trivial, fun k _ => ?_, rfl⟩
    rw [Fits, addedUp_exact, room, charge]
    push_cast
    constructor <;> intro h <;> linarith
  | rollingQuota cfg =>
    obtain ⟨hunit, hfits, hforecast⟩ := comparesExactly_slidingWindow cfg state cost hnow
    exact ⟨hunit, hfits, hforecast⟩

end Peekable

end Exact

/-! ### Whole numbers -/

section Whole

variable [Rounding] {limit count cost : ℚ}

/-- A whole number is past a whole limit exactly when it is so rounded. -/
theorem fl_le_iff_of_isWhole {x : ℚ} (hlimit : IsWhole limit) (hsmall : limit < 2 ^ 53)
    (hpos : 0 ≤ limit) (hwhole : IsWhole x) (hx : 0 ≤ x) : fl x ≤ limit ↔ x ≤ limit := by
  constructor
  · intro h
    by_contra hlt
    have hmore : limit + 1 ≤ x := hlimit.add_one_le hwhole (not_le.mp hlt)
    have hbound : limit + 1 ≤ 2 ^ 53 := hlimit.add_one_le (by decide +kernel) hsmall
    have hnext : fl (limit + 1) = limit + 1 :=
      (hlimit.add (isWhole_intCast 1)).fl_eq (by rwa [Int.cast_one, abs_of_nonneg (by linarith)])
    linarith [Rounding.mono hmore]
  · intro h
    rwa [hwhole.fl_eq (by rw [abs_of_nonneg hx]; linarith)]

/-- Whole costs are added up without rounding as long as they fit. -/
theorem addedUp_of_fits (hlimit : IsWhole limit) (hsmall : limit < 2 ^ 53) (hcount : IsWhole count)
    (hnonneg : 0 ≤ count) (hle : count ≤ limit) (hcost : IsWhole cost) (hpos : 0 < cost) :
    ∀ k : ℕ, (∀ j < k, addedUp count cost (j + 1) ≤ limit) →
      addedUp count cost k = count + k * cost ∧
        (addedUp count cost (k + 1) ≤ limit ↔ count + (k + 1) * cost ≤ limit) := by
  have hwhole (k : ℕ) : IsWhole (count + k * cost) := hcount.add ((isWhole_intCast k).mul hcost)
  have hsum (k : ℕ) : 0 ≤ count + k * cost := by positivity
  have hfits (k : ℕ) (h : addedUp count cost k = count + k * cost) :
      addedUp count cost (k + 1) ≤ limit ↔ count + (k + 1) * cost ≤ limit := by
    have hnext : count + k * cost + cost = count + (k + 1) * cost := by ring
    have hlast := fl_le_iff_of_isWhole hlimit hsmall (hnonneg.trans hle) (hwhole (k + 1))
      (hsum (k + 1))
    rw [addedUp, h, hnext]
    exact_mod_cast hlast
  intro k
  induction k with
  | zero => exact fun _ => ⟨by simp [addedUp], hfits 0 (by simp [addedUp])⟩
  | succ k ih =>
    intro hall
    obtain ⟨heq, hiff⟩ := ih fun j hj => hall j (Nat.lt_succ_of_lt hj)
    have hle' := hiff.mp (hall k (Nat.lt_succ_self k))
    have hnext : addedUp count cost (k + 1) = count + (k + 1 : ℕ) * cost := by
      have hexact := (hwhole (k + 1)).fl_eq (by
        rw [abs_of_nonneg (hsum (k + 1))]
        push_cast
        linarith)
      rw [addedUp, heq, ← hexact]
      congr 1
      push_cast
      ring
    exact ⟨hnext, hfits (k + 1) hnext⟩

/-- **In a fixed window of whole numbers every step compares exactly.** -/
theorem Peekable.fixedWindow_comparesExactly (cfg : FixedWindow.Config)
    (state : Option FixedWindow.State) (now : ℚ) (hlimit : IsWhole cfg.limit)
    (hsmall : cfg.limit < 2 ^ 53)
    (hcount : IsWhole (FixedWindow.countIn state (startOf cfg.windowMs now)))
    (hnonneg : 0 ≤ FixedWindow.countIn state (startOf cfg.windowMs now))
    (hle : FixedWindow.countIn state (startOf cfg.windowMs now) ≤ cfg.limit)
    (hwhole : IsWhole cost) (hpos : 0 < cost) (hbound : cost ≤ 2 ^ 53) :
    (fixedWindow cfg).ComparesExactly state now cost := by
  refine ⟨trivial, fun k hall => ?_, ?_⟩
  · rw [Fits, (addedUp_of_fits hlimit hsmall hcount hnonneg hle hwhole hpos k hall).2, room,
      charge]
    constructor <;> intro h <;> linarith
  · have hroom := hlimit.sub hcount
    have hfree : 0 ≤ cfg.limit - FixedWindow.countIn state (startOf cfg.windowMs now) :=
      sub_nonneg.mpr hle
    rw [free, room, hroom.fl_eq (by rw [abs_of_nonneg hfree]; linarith), max_eq_right hfree, units]
    obtain ⟨n, hn⟩ := hroom.exists_eq
    obtain ⟨w, rfl⟩ := hwhole.exists_eq
    rw [hn] at hfree ⊢
    have hlt : (n : ℚ) < 2 ^ 53 := by linarith
    refine floor_fl_div n w ?_ (by exact_mod_cast hpos) ?_
    · rw [abs_of_nonneg (by exact_mod_cast hfree)]
      exact_mod_cast hlt
    · exact_mod_cast hbound

end Whole

namespace Peekable

theorem sevenTenths_pos : 0 < Double.roundRat (7 / 10) := by decide +kernel

/-- A bucket of 0.7. -/
def sevenTenths : TokenBucket.Config where
  capacity := Double.roundRat (7 / 10)
  refillPerSec := 1
  capacity_pos := sevenTenths_pos
  refillPerSec_pos := unit_pos

/-- After half a unit, another half unit and a quarter; after a unit, another. -/
theorem agrees_iff_half_unit :
    let halfAt0 : List Call := [⟨0, 1 / 2⟩]
    (let m := gcra Policy.threePerSecond
      let state := after (served (@strategy doubles m).check) none halfAt0
      @Agrees _ doubles (@strategy doubles m) state 500 (1 / 2) ↔
        @Foretells doubles m state 500 (1 / 2)) ∧
    (let m := slidingWindowLog Policy.pairInSecond
      let state := after (served (@strategy doubles m).check) none halfAt0
      @Agrees _ doubles (@strategy doubles m) state 500 (3 / 4) ↔
        @Foretells doubles m state 500 (3 / 4)) ∧
    let m := fixedWindow Policy.pairPerWindow
    let state := after (served (@strategy doubles m).check) none [⟨0, 1⟩]
    @Agrees _ doubles (@strategy doubles m) state 10 1 ↔ @WholeUnits doubles m state 10 1 :=
  ⟨(@agrees_iff doubles (gcra Policy.threePerSecond) [⟨0, 1 / 2⟩] _ _ (by decide +kernel)).1,
    (@agrees_iff doubles (slidingWindowLog Policy.pairInSecond) [⟨0, 1 / 2⟩] _ _
      (by decide +kernel)).1,
    (@agrees_iff doubles (fixedWindow Policy.pairPerWindow) [⟨0, 1⟩] _ _ (by decide +kernel)).2
      (@fixedWindow_comparesExactly doubles 1 Policy.pairPerWindow _ 10 (by decide +kernel)
        (by decide +kernel) (by decide +kernel) (by decide +kernel) (by decide +kernel)
        (by decide +kernel) one_pos (by decide +kernel))⟩

/-- The state of a strategy after half a unit at 0. -/
def halfAt0 (m : Peekable) : Option m.State :=
  after (served (@strategy doubles m).check) none [⟨0, 1 / 2⟩]

/-- A fractional cost is not always forecast exactly: two halves of the one and a half units that
are left, where three are admitted, or four halves of an empty log, where two are. And twenty times
0.1 of a window of two, where nineteen are admitted, or six of a bucket of 0.7, where seven are. -/
theorem not_agrees :
    (¬ @Agrees _ doubles (@strategy doubles (gcra Policy.threePerSecond)) (halfAt0 _) 0 (1 / 2)) ∧
    (¬ @Agrees _ doubles (@strategy doubles (slidingWindow Policy.rollingPair)) (halfAt0 _) 0
      (1 / 2)) ∧
    (¬ @Agrees _ doubles (@strategy doubles (slidingWindowLog Policy.pairInSecond)) none 0
      (1 / 2)) ∧
    (¬ @Agrees _ doubles (@strategy doubles (fixedWindow Policy.pairPerWindow)) none 0
      (Double.roundRat (1 / 10))) ∧
    ¬ @Agrees _ doubles (@strategy doubles (tokenBucket sevenTenths)) none 0
      (Double.roundRat (1 / 10)) := by
  have hforecast (m : Peekable) (state : Option m.State) (cost : ℚ) (hcost : 0 < cost)
      (hfree : 0 ≤ @free doubles m state 0)
      (h : @Agrees _ doubles (@strategy doubles m) state 0 cost) :=
    (@forecast_iff doubles m state 0 cost hcost hfree).mp (@Agrees.forecast _ doubles _ _ _ _ h)
  refine ⟨fun h => ?_, fun h => ?_, fun h => ?_, fun h => ?_, fun h => ?_⟩
  · exact (hforecast (gcra _) _ _ (by decide +kernel) (by decide +kernel) h).2
      (show (_ : ℚ) ≤ _ by decide +kernel)
  · exact (hforecast (slidingWindow _) _ _ (by decide +kernel) (by decide +kernel) h).2
      (show (_ : ℚ) ≤ _ by decide +kernel)
  · exact absurd ((hforecast (slidingWindowLog _) _ _ (by decide +kernel) (by decide +kernel) h).1 2
      (by decide +kernel)) (show ¬ (_ : ℚ) ≤ _ by decide +kernel)
  · exact absurd ((hforecast (fixedWindow _) _ _ (by decide +kernel) (by decide +kernel) h).1 19
      (by decide +kernel)) (show ¬ (_ : ℚ) ≤ _ by decide +kernel)
  · exact (hforecast (tokenBucket _) _ _ (by decide +kernel) (by decide +kernel) h).2
      (show (_ : ℚ) ≤ _ by decide +kernel)

end Peekable

end ThrottleKit
