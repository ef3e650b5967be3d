import ThrottleKit.Algorithms.SlidingWindowLog
import ThrottleKit.Algorithms.TokenBucket
import ThrottleKit.Algorithms.FixedWindow
import ThrottleKit.Algorithms.Gcra
import ThrottleKit.Core.Limiter
import ThrottleKit.Lib.Lockstep
import ThrottleKit.Lib.OrderedMap

/-!
# The cached-deny mode

A node remembers the last denial of a key until its `retryAfterMs` is over, and meanwhile denies the
key without asking the second tier. In strict mode every check asks it.

The denial that is remembered was made for one cost, and is replayed to a request of any cost. The
outcomes are those of strict mode as long as no request is cheaper than the denial that it finds,
and the denials of the strategy last for their `retryAfterMs`. Those of a fixed window of whole
numbers do; a `retryAfterMs` that is computed from a rate may be a millisecond too long.

## Main definitions

* `Cached`, `check`, `strict` — one node in either mode
* `NoCheaper` — no request is cheaper than the denial it finds

## Main results

* `cachedDeny_eq_strict` — the same outcomes as strict mode
* `cachedDeny_overdenies` — without each of the conditions, and for a rate in doubles, they are not
-/

namespace ThrottleKit.CachedDeny

open Lockstep Rounding

variable {S : Type}

/-- The options of `twoTier` with the cached-deny mode. -/
structure Config (S : Type) where
  strategy : Strategy S
  /-- `l1.maxKeys`; unbounded when `none`. -/
  maxKeys : Option ℚ
  keyPrefix : Option String

/-- A denial that is remembered. -/
structure Deny where
  until_ : ℚ
  decision : Decision
  /-- Ghost: the cost that was denied. -/
  cost : ℚ

/-- A node and the second tier. -/
structure Cached (S : Type) where
  denyUntil : OrderedMap String Deny
  l2 : Entries S

/-- A node that has seen nothing, and an empty second tier. -/
def Cached.new : Cached S := ⟨.empty, .empty⟩

/-- A check. -/
structure Request where
  key : String
  cost : ℚ
  now : ℚ

/-- `evict()`: the denial remembered longest goes when there is no room. -/
def evict (maxKeys : Option ℚ) (denyUntil : OrderedMap String Deny) : OrderedMap String Deny :=
  if maxKeys.any fun m => m ≤ (denyUntil.size : ℚ) then
    match denyUntil.oldest? with
    | some oldest => denyUntil.erase oldest
    | none => denyUntil
  else denyUntil

/-- The denial in force at `now`. -/
def inForce (denyUntil : OrderedMap String Deny) (key : String) (now : ℚ) : Option Deny :=
  (denyUntil.lookup key).filter fun cached => now < cached.until_

/-- `check(key, cost)` in cached-deny mode. -/
def check [Rounding] (cfg : Config S) :
    Service (Cached S) Request (Except CostError Decision) := fun s r =>
  match requireCost r.cost with
  | .error err => (s, .error err)
  | .ok () =>
    let fk := prefixer cfg.keyPrefix r.key
    match inForce s.denyUntil fk r.now with
    | some cached => (s, .ok ⟨false, cached.decision.limit, 0, cached.decision.resetAt,
        ⌈fl (cached.until_ - r.now)⌉⟩)
    | none =>
      let denyUntil := s.denyUntil.erase fk
      let out := s.l2.applySync fk (fun state => cfg.strategy.check state r.now r.cost) r.now
      if out.2.allowed = false then
        (⟨(evict cfg.maxKeys denyUntil).set fk ⟨fl (r.now + out.2.retryAfterMs), out.2, r.cost⟩,
          out.1⟩, .ok out.2)
      else (⟨denyUntil, out.1⟩, .ok out.2)

/-- `check(key, cost)` in strict mode. -/
def strict [Rounding] (cfg : Config S) : Service (Entries S) Request (Except CostError Decision) :=
  fun l2 r => Limiter.check cfg.strategy cfg.keyPrefix l2 r.key r.cost r.now

/-- Whether a check is allowed, or how it throws. -/
def outcome (answer : Except CostError Decision) : Except CostError Bool := answer.map (·.allowed)

/-- Both modes allow and deny the same checks. -/
def SameOutcomes [Rounding] (cfg : Config S) (rs : List Request) : Prop :=
  (answers (check cfg) Cached.new rs).map outcome
    = (answers (strict cfg) Entries.empty rs).map outcome

/-- **The condition.** A request is no cheaper than the denial in force that it finds. -/
def NoCheaper (cfg : Config S) (s : Cached S) (r : Request) : Prop :=
  ∀ cached ∈ inForce s.denyUntil (prefixer cfg.keyPrefix r.key) r.now, cached.cost ≤ r.cost

instance (cfg : Config S) (s : Cached S) (r : Request) : Decidable (NoCheaper cfg s r) :=
  inferInstanceAs (Decidable (∀ cached ∈ inForce _ _ _, cached.cost ≤ r.cost))

/-! ### The two modes in step -/

/-- The entry was written by a check at an instant that meets `at_`. -/
def Written [Rounding] (at_ : ℚ → Prop) (strategy : Strategy S) (entry : S × ℚ) : Prop :=
  ∃ state t c, at_ t ∧ (strategy.check state t c).persist = true ∧
    (strategy.check state t c).state = some entry.1 ∧
        fl (t + (strategy.check state t c).ttlMs) ≤ entry.2

/-- The second tier is that of strict mode, and denies what a remembered denial denies. -/
structure InStep [Rounding] (at_ : ℚ → Prop) (cfg : Config S) (now : ℚ) (s : Cached S)
    (l2 : Entries S) : Prop where
  sameStore : s.l2 = l2
  written : ∀ k, ∀ entry ∈ l2 k, Written at_ cfg.strategy entry
  denies : ∀ k cached, s.denyUntil.lookup k = some cached → ∀ t, now ≤ t → at_ t →
    t < cached.until_ → ∀ c, cached.cost ≤ c →
      (cfg.strategy.check (l2.pending k t) t c).result.allowed = false

section InStep

variable [Rounding] {at_ : ℚ → Prop} {cfg : Config S} {now : ℚ} {s : Cached S} {l2 : Entries S}
  {k : String}
  {r : Request}

theorem inStep_new (now : ℚ) : InStep at_ cfg now Cached.new Entries.empty where
  sameStore := rfl
  written _ _ h := by cases h
  denies _ _ h := by cases h

theorem InStep.mono {now' : ℚ} (hle : now ≤ now') (h : InStep at_ cfg now s l2) :
    InStep at_ cfg now' s l2 where
  sameStore := h.sameStore
  written := h.written
  denies k cached hcached t ht := h.denies k cached hcached t (hle.trans ht)

/-- An entry that expires meanwhile decides what it would if it did not. -/
theorem result_pending (hdue : DueIsNone at_ cfg.strategy.check)
    (hwritten : ∀ entry ∈ l2 k, Written at_ cfg.strategy entry) {t : ℚ} (hle : now ≤ t)
    (hat : at_ t) (c : ℚ) : (cfg.strategy.check (l2.pending k t) t c).result
      = (cfg.strategy.check (l2.pending k now) t c).result := by
  cases hentry : l2 k with
  | none => simp [Entries.pending, hentry]
  | some entry =>
    obtain ⟨state, t₀, c₀, hat₀, hpersist, hstate, hend⟩ := hwritten entry hentry
    have hpending (t : ℚ) : l2.pending k t = if entry.2 ≤ t then none else some entry.1 := by
      simp [Entries.pending, hentry]
    rw [hpending, hpending]
    by_cases hnow : entry.2 ≤ now
    · rw [if_pos hnow, if_pos (hnow.trans hle)]
    · rw [if_neg hnow]
      split
      · rename_i hexpired
        have hnone := hdue _ _ _ _ hat₀ hpersist hstate t hat (hend.trans hexpired) c
        exact (congrArg Prod.fst hnone).symm
      · rfl

omit [Rounding] in
theorem lookup_evict {maxKeys : Option ℚ} {m : OrderedMap String Deny} {cached : Deny}
    (h : (evict maxKeys m).lookup k = some cached) : m.lookup k = some cached := by
  unfold evict at h
  split at h
  · split at h
    · rename_i oldest _
      rw [OrderedMap.lookup_erase] at h
      split at h
      · cases h
      · exact h
    · exact h
  · exact h

/-- What the second tier holds after a check, in either mode. -/
theorem Written.applySync (h : ∀ k, ∀ entry ∈ l2 k, Written at_ cfg.strategy entry)
    (hat : at_ r.now) (key : String) :
    ∀ k, ∀ entry ∈
        (l2.applySync key (fun state => cfg.strategy.check state r.now r.cost) r.now).1 k,
      Written at_ cfg.strategy entry := by
  intro k entry hentry
  cases hpersist : (cfg.strategy.check (l2.pending key r.now) r.now r.cost).persist with
  | false =>
    rw [Entries.applySync_of_not_persist hpersist] at hentry
    exact h k entry hentry
  | true =>
    rw [Entries.applySync_of_persist_rounded hpersist] at hentry
    by_cases hk : k = key
    · subst hk
      rw [Function.update_self] at hentry
      obtain ⟨state, hstate, rfl⟩ := Option.map_eq_some_iff.mp hentry
      exact ⟨_, _, _, hat, hpersist, hstate,
        Rounding.mono (add_le_add_right (le_max_right 0 _) _)⟩
    · rw [Function.update_of_ne hk] at hentry
      exact h k entry hentry

/-- **One check in either mode.** -/
theorem InStep.check (h : InStep at_ cfg r.now s l2) (hdue : DueIsNone at_ cfg.strategy.check)
    (hlast : DenialsLast at_ cfg.strategy.check) (hat : at_ r.now) (hcost : NoCheaper cfg s r) :
    outcome (check cfg s r).2 = outcome (strict cfg l2 r).2 ∧
      InStep at_ cfg r.now (check cfg s r).1 (strict cfg l2 r).1 := by
  obtain ⟨hstore, hwritten, hdenies⟩ := h
  subst hstore
  unfold CachedDeny.check strict Limiter.check
  cases hreq : requireCost r.cost with
  | error err => exact ⟨rfl, rfl, hwritten, hdenies⟩
  | ok _ =>
    dsimp only
    cases hforce : inForce s.denyUntil (prefixer cfg.keyPrefix r.key) r.now with
    | some cached =>
      -- The replayed denial: the second tier denies as well, and writes nothing.
      obtain ⟨hlookup, huntil⟩ := Option.filter_eq_some_iff.mp hforce
      have hdenied := hdenies _ _ hlookup r.now le_rfl hat (of_decide_eq_true huntil) r.cost
        (hcost cached hforce)
      rw [Entries.applySync_of_not_persist (hlast.keeps _ _ _ hdenied)]
      refine ⟨?_, rfl, hwritten, hdenies⟩
      rw [Entries.applySync_snd]
      exact (congrArg Except.ok hdenied).symm
    | none =>
      have hstays := Written.applySync hwritten hat (prefixer cfg.keyPrefix r.key)
      dsimp only
      rw [Entries.applySync_snd]
      split
      · rename_i hdenied
        refine ⟨rfl, rfl, hstays, fun k cached hlookup t hle hat' huntil c hc => ?_⟩
        rw [Entries.applySync_of_not_persist (hlast.keeps _ _ _ hdenied)]
        by_cases hk : k = prefixer cfg.keyPrefix r.key
        · subst hk
          rw [OrderedMap.lookup_set_self] at hlookup
          obtain rfl := Option.some.inj hlookup
          rw [result_pending hdue (hwritten _) hle hat']
          exact hlast.denies _ _ _ _ _ hat hat' hle hc hdenied huntil
        · rw [OrderedMap.lookup_set_of_ne _ _ (Ne.symm hk)] at hlookup
          have hold := lookup_evict hlookup
          rw [OrderedMap.lookup_erase_of_ne _ (Ne.symm hk)] at hold
          exact hdenies k cached hold t hle hat' huntil c hc
      · refine ⟨rfl, rfl, hstays, fun k cached hlookup t hle hat' huntil c hc => ?_⟩
        by_cases hk : k = prefixer cfg.keyPrefix r.key
        · subst hk
          rw [OrderedMap.lookup_erase_self] at hlookup
          cases hlookup
        · rw [OrderedMap.lookup_erase_of_ne _ (Ne.symm hk)] at hlookup
          rw [Entries.pending_applySync_of_ne hk]
          exact hdenies k cached hlookup t hle hat' huntil c hc

/-- **Cached-deny mode has the outcomes of strict mode**, check by check, over every strategy whose
denials last and whose state is as good as none once it has expired, when no request is cheaper than
the denial in force that it finds. -/
theorem cachedDeny_eq_strict (hdue : DueIsNone at_ cfg.strategy.check)
    (hlast : DenialsLast at_ cfg.strategy.check) {rs : List Request}
    (hsorted : rs.Pairwise fun r r' => r.now ≤ r'.now) (hat : ∀ r ∈ rs, at_ r.now)
    (hcost : AllMet (check cfg) (NoCheaper cfg) Cached.new rs) : SameOutcomes cfg rs := by
  rw [SameOutcomes, ← List.forall₂_eq_eq_eq, List.forall₂_map_left_iff, List.forall₂_map_right_iff]
  exact forall₂_answers_of_start (R := InStep at_ cfg) (fun hle => InStep.mono hle)
    (fun _ _ _ h hok => h.check hdue hlast hok.1 hok.2) inStep_new hsorted
    (hcost.and_forall hat)

end InStep

theorem five_pos : (0 : ℚ) < 5 := by norm_num

theorem five_halves_pos : (0 : ℚ) < 5 / 2 := by norm_num

/-- Three requests in a window of a second, with room to remember one key. -/
def threeInWindow : Config FixedWindow.State where
  strategy := @FixedWindow.fixedWindow doubles ⟨3, 1000, three_pos, second_pos⟩
  maxKeys := some 1
  keyPrefix := some "l2"

/-- Two keys of which one can be remembered, each denied and asked again, up to the end of the
window and past it. -/
theorem cachedDeny_eq_strict_two_keys :
    @SameOutcomes _ doubles threeInWindow [⟨"a", 2, 0⟩, ⟨"b", 3, 0⟩, ⟨"a", 2, 0⟩, ⟨"a", 3, 500⟩,
      ⟨"b", 1, 600⟩, ⟨"b", 1, 999⟩, ⟨"b", 1, 1000⟩, ⟨"a", 2, 1200⟩] :=
  @cachedDeny_eq_strict _ doubles _ threeInWindow (@FixedWindow.dueIsNone_of_wholeAt doubles _)
    (@FixedWindow.denialsLast_of_wholeAt doubles _) _ (by decide +kernel) (by decide +kernel)
    (by decide +kernel)

/-- A bucket of five tokens that drips one a second. -/
def fiveTokens : Config TokenBucket.State where
  strategy := @TokenBucket.tokenBucket doubles ⟨5, 1, five_pos, unit_pos⟩
  maxKeys := some 1
  keyPrefix := none

/-- A log of two and a half units in a second. -/
def halfUnits : Config (List ℚ) where
  strategy := @SlidingWindowLog.slidingWindowLog doubles ⟨5 / 2, 1000, five_halves_pos, second_pos⟩
  maxKeys := none
  keyPrefix := none

/-- Three requests a second, one at a time. -/
def threePerSecond : Config ℚ where
  strategy := @Gcra.gcra doubles ⟨3, 1000, 1, three_pos, second_pos, one_le_unit⟩
  maxKeys := none
  keyPrefix := none

/-- A bucket of two tokens, ten of which drip in a second. -/
def twoTokens : Config TokenBucket.State where
  strategy := @TokenBucket.tokenBucket doubles ⟨2, 10, pair_pos, ten_pos⟩
  maxKeys := none
  keyPrefix := none

/-- A cheaper request than the denied one; a denial whose `retryAfterMs` is too long, as the limit
is not whole; a clock that reads part of a millisecond; and a bucket one millisecond before its next
token, which computes two for what is missing. In each case strict mode allows the last request, and
a remembered denial is replayed to it. -/
theorem cachedDeny_overdenies :
    (¬ ∀ (cfg : Config TokenBucket.State) (rs : List Request),
      rs.Pairwise (fun r r' => r.now ≤ r'.now) → (∀ r ∈ rs, WholeMs r.now) →
        @SameOutcomes _ doubles cfg rs) ∧
    (¬ ∀ (cfg : Config (List ℚ)) (rs : List Request),
      rs.Pairwise (fun r r' => r.now ≤ r'.now) → (∀ r ∈ rs, WholeMs r.now ∧ r.cost = 2) →
        @SameOutcomes _ doubles cfg rs) ∧
    (¬ ∀ (cfg : Config ℚ) (rs : List Request),
      rs.Pairwise (fun r r' => r.now ≤ r'.now) → (∀ r ∈ rs, r.cost = 1) →
        @SameOutcomes _ doubles cfg rs) ∧
    ¬ ∀ (cfg : Config TokenBucket.State) (rs : List Request),
      rs.Pairwise (fun r r' => r.now ≤ r'.now) → (∀ r ∈ rs, WholeMs r.now ∧ r.cost = 1) →
        @SameOutcomes _ doubles cfg rs := by
  have hlast {l l' : List (Except CostError Bool)} (h : l = l') : l.getLast?.map Except.toOption
      = l'.getLast?.map Except.toOption := by rw [h]
  refine ⟨fun h => ?_, fun h => ?_, fun h => ?_, fun h => ?_⟩
  · have hrun := h fiveTokens [⟨"a", 4, 0⟩, ⟨"a", 2, 0⟩, ⟨"a", 1, 0⟩] (by decide +kernel)
      (by decide +kernel)
    exact absurd (hlast hrun) (by decide +kernel)
  · have hrun := h halfUnits [⟨"a", 2, 0⟩, ⟨"a", 2, 100⟩, ⟨"a", 2, 1000⟩] (by decide +kernel)
      (by decide +kernel)
    exact absurd (hlast hrun) (by decide +kernel)
  · have hrun := h threePerSecond [⟨"a", 1, 0⟩, ⟨"a", 1, 0⟩, ⟨"a", 1, 667 / 2⟩] (by decide +kernel)
      (by decide +kernel)
    exact absurd (hlast hrun) (by decide +kernel)
  · have hrun := h twoTokens [⟨"a", 1, 0⟩, ⟨"a", 1, 0⟩, ⟨"a", 1, 99⟩, ⟨"a", 1, 100⟩]
      (by decide +kernel) (by decide +kernel)
    exact absurd (hlast hrun) (by decide +kernel)

end ThrottleKit.CachedDeny
