import ThrottleKit.Algorithms.Forecast

/-!
# Strategies that decide alike

Two strategies decide alike when no checks of a key tell them apart. Strategies of one kind are told
apart by one check at the right instant and of the right cost, or by two for the buckets of a
sliding window, whenever an option they go by is different.

## Main definitions

* `Alike` — the same decisions on all checks

## Main results

* `alike_of_check` — strategies with the same checks
* `not_alike_gcra_burst` and so on — what tells two of a kind apart
* `not_alike_anchor`, `alike_anchor` — anchors, by whether the period divides a millisecond
-/

namespace ThrottleKit

open Lockstep Rounding

/-- No checks of a key tell `m` from `m'`. -/
def Alike (m m' : Peekable) : Prop := ∀ calls : List Call,
  answers (served m.strategy.check) none calls = answers (served m'.strategy.check) none calls

theorem not_alike_of_first {m m' : Peekable} (now cost : ℚ)
    (h : (m.strategy.check none now cost).result ≠ (m'.strategy.check none now cost).result) :
    ¬ Alike m m' := fun halike => h (List.cons.inj (halike [⟨now, cost⟩])).1

theorem not_alike_of_limit {m m' : Peekable} {l l' : ℚ} (hne : l ≠ l')
    (h : (m.strategy.check none 0 1).result.limit = l)
    (h' : (m'.strategy.check none 0 1).result.limit = l') : ¬ Alike m m' := by
  refine not_alike_of_first 0 1 fun heq => hne ?_
  rw [← h, ← h', heq]

theorem not_alike_of_resetAt {m m' : Peekable} (now cost : ℚ)
    (h : (m.strategy.check none now cost).result.resetAt
      ≠ (m'.strategy.check none now cost).result.resetAt) : ¬ Alike m m' :=
  not_alike_of_first now cost fun heq => h (by rw [heq])

/-- A ceiling that is passed by one. -/
theorem ceil_ne_ceil_add {x y : ℚ} (h : x + 1 ≤ y) : ((⌈x⌉ : ℤ) : ℚ) ≠ (⌈y⌉ : ℤ) := by
  have hlt : ⌈x⌉ < ⌈y⌉ := by
    rw [Int.lt_ceil]
    have hx := Int.ceil_lt_add_one x
    linarith
  exact_mod_cast hlt.ne

/-! ### GCRA -/

theorem Gcra.check_limit (cfg : Config) (state : Option ℚ) (now cost : ℚ) :
    (check cfg state now cost).result.limit = cfg.burst := by
  unfold check
  dsimp only
  split <;> rfl

theorem not_alike_gcra_burst {cfg cfg' : Gcra.Config} (h : cfg.burst ≠ cfg'.burst) :
    ¬ Alike (.gcra cfg) (.gcra cfg') :=
  not_alike_of_limit h (Gcra.check_limit cfg none 0 1) (Gcra.check_limit cfg' none 0 1)

/-- A first unit is always admitted. -/
theorem Gcra.first_resetAt (cfg : Config) (now : ℚ) :
    (check cfg none now 1).result.resetAt = ⌈now + cfg.T⌉ := by
  rw [check_eq, Option.getD_none, max_self, mul_one, if_neg]
  have hle : cfg.T ≤ cfg.tau := le_mul_of_one_le_right cfg.T_pos.le cfg.one_le_burst
  linarith

theorem not_alike_gcra_T {cfg cfg' : Gcra.Config} (h : cfg'.T < cfg.T) :
    ¬ Alike (.gcra cfg) (.gcra cfg') := by
  -- The arrival times are on either side of zero.
  refine not_alike_of_resetAt (-(cfg.T + cfg'.T) / 2) 1 ?_
  show (Gcra.check cfg none _ 1).result.resetAt ≠ (Gcra.check cfg' none _ 1).result.resetAt
  rw [Gcra.first_resetAt, Gcra.first_resetAt]
  have hpos : 0 < ⌈-(cfg.T + cfg'.T) / 2 + cfg.T⌉ := Int.ceil_pos.mpr (by linarith)
  have hnonpos : ⌈-(cfg.T + cfg'.T) / 2 + cfg'.T⌉ ≤ 0 :=
    Int.ceil_le.mpr (by push_cast; linarith)
  exact_mod_cast (hnonpos.trans_lt hpos).ne'

/-! ### The token bucket -/

theorem TokenBucket.check_limit (cfg : Config) (state : Option State) (now cost : ℚ) :
    (check cfg state now cost).result.limit = cfg.capacity := by
  unfold check
  dsimp only
  split <;> rfl

theorem not_alike_tokenBucket_capacity {cfg cfg' : TokenBucket.Config}
    (h : cfg.capacity ≠ cfg'.capacity) : ¬ Alike (.tokenBucket cfg) (.tokenBucket cfg') :=
  not_alike_of_limit h (TokenBucket.check_limit cfg none 0 1)
    (TokenBucket.check_limit cfg' none 0 1)

/-- When a full bucket has more than its capacity. -/
theorem TokenBucket.first_retryAfterMs (cfg : Config) {x : ℚ} (hx : 0 < x) :
    (check cfg none 0 (cfg.capacity + x)).result.retryAfterMs = ⌈x / cfg.refillPerMs⌉ := by
  rw [check_eq, tokensAt_none, if_neg (by linarith), add_sub_cancel_left]

theorem not_alike_tokenBucket_refill {cfg cfg' : TokenBucket.Config}
    (hcapacity : cfg.capacity = cfg'.capacity)
    (h : cfg'.refillPerSec = 2 * cfg.refillPerSec) :
    ¬ Alike (.tokenBucket cfg) (.tokenBucket cfg') := by
  have hpos := cfg.refillPerMs_pos
  have hrate : cfg'.refillPerMs = 2 * cfg.refillPerMs := by
    rw [TokenBucket.Config.refillPerMs, TokenBucket.Config.refillPerMs, h, fl_exact, fl_exact]
    ring
  refine not_alike_of_first 0 (cfg.capacity + 2 * cfg.refillPerMs) fun heq => ?_
  have hretry := congrArg Decision.retryAfterMs heq
  change (TokenBucket.check cfg none 0 _).result.retryAfterMs
    = (TokenBucket.check cfg' none 0 _).result.retryAfterMs at hretry
  rw [TokenBucket.first_retryAfterMs cfg (by linarith), hcapacity,
    TokenBucket.first_retryAfterMs cfg' (by linarith), hrate, div_self (by linarith),
    mul_div_cancel_right₀ _ hpos.ne', Int.ceil_one, show (2 : ℚ) = ((2 : ℤ) : ℚ) from rfl,
    Int.ceil_intCast] at hretry
  norm_num at hretry

/-! ### Fixed windows and logs -/

theorem FixedWindow.check_limit (cfg : Config) (state : Option State) (now cost : ℚ) :
    (check cfg state now cost).result.limit = cfg.limit := by
  unfold check
  dsimp only
  split <;> rfl

theorem not_alike_fixedWindow_limit {cfg cfg' : FixedWindow.Config} (h : cfg.limit ≠ cfg'.limit) :
    ¬ Alike (.fixedWindow cfg) (.fixedWindow cfg') :=
  not_alike_of_limit h (FixedWindow.check_limit cfg none 0 1)
    (FixedWindow.check_limit cfg' none 0 1)

theorem FixedWindow.first_resetAt (cfg : Config) :
    (check cfg none 0 1).result.resetAt = ⌈cfg.windowMs⌉ := by
  have hstart : AlignedWindow.alignedStart cfg.windowMs 0 = 0 := by
    simp [AlignedWindow.alignedStart]
  rw [check_eq]
  rw [hstart, zero_add]
  split <;> rfl

theorem not_alike_fixedWindow_window {cfg cfg' : FixedWindow.Config}
    (h : cfg'.windowMs = cfg.windowMs + 1) : ¬ Alike (.fixedWindow cfg) (.fixedWindow cfg') := by
  refine not_alike_of_resetAt 0 1 ?_
  show (FixedWindow.check cfg none 0 1).result.resetAt
    ≠ (FixedWindow.check cfg' none 0 1).result.resetAt
  rw [FixedWindow.first_resetAt, FixedWindow.first_resetAt, h]
  exact ceil_ne_ceil_add le_rfl

theorem SlidingWindowLog.check_limit (cfg : Config) (state : Option (List ℚ)) (now cost : ℚ) :
    (check cfg state now cost).result.limit = cfg.limit := by
  unfold check
  dsimp only
  split <;> rfl

theorem not_alike_log_limit {cfg cfg' : SlidingWindowLog.Config} (h : cfg.limit ≠ cfg'.limit) :
    ¬ Alike (.slidingWindowLog cfg) (.slidingWindowLog cfg') :=
  not_alike_of_limit h (SlidingWindowLog.check_limit cfg none 0 1)
    (SlidingWindowLog.check_limit cfg' none 0 1)

theorem SlidingWindowLog.first_resetAt (cfg : Config) :
    (check cfg none 0 1).result.resetAt = ⌈cfg.windowMs⌉ := by
  unfold check
  dsimp only
  split <;> simp [survivors]

theorem not_alike_log_window {cfg cfg' : SlidingWindowLog.Config}
    (h : cfg'.windowMs = cfg.windowMs + 1) :
    ¬ Alike (.slidingWindowLog cfg) (.slidingWindowLog cfg') := by
  refine not_alike_of_resetAt 0 1 ?_
  show (SlidingWindowLog.check cfg none 0 1).result.resetAt
    ≠ (SlidingWindowLog.check cfg' none 0 1).result.resetAt
  rw [SlidingWindowLog.first_resetAt, SlidingWindowLog.first_resetAt, h]
  exact ceil_ne_ceil_add le_rfl

/-! ### Sliding windows -/

namespace SlidingWindow

variable (cfg : Config)

theorem check_result (state : Option State) (now cost : ℚ) :
    (check cfg state now cost).result = decideBy cfg (full cfg (state.getD .empty) now)
      (oldest cfg (state.getD .empty) now) now cost := by
  unfold check
  dsimp only
  split <;> rfl

theorem decideBy_resetAt_eq (full oldest now cost : ℚ) :
    (decideBy cfg full oldest now cost).resetAt = ⌈(tick cfg now + 1) * cfg.w + cfg.windowMs⌉ := by
  unfold decideBy
  dsimp only
  split <;> rfl

@[simp] theorem tick_zero : tick cfg 0 = 0 := by simp [tick]

/-- What the ring counts once the limit was spent at the epoch. -/
theorem countAt_spent (idx : ℤ) (hidx : idx ≤ cfg.buckets) :
    countAt cfg (bumped cfg .empty 0 cfg.limit) idx = if idx = 0 then cfg.limit else 0 := by
  rcases lt_or_ge idx 0 with hneg | hnonneg
  · rw [countAt_of_neg hneg, if_neg hneg.ne]
  · have hslot : idx.tmod cfg.slots = idx := by
      rw [Int.tmod_eq_emod_of_nonneg hnonneg]
      exact Int.emod_eq_of_lt hnonneg (by rw [Config.slots]; omega)
    rw [countAt_bumped _ _ _ hnonneg, hslot, Int.zero_tmod, countAt_empty, countAt_empty, zero_add]
    split_ifs <;> rfl

/-- The limit was spent at the epoch, and it is now just past the first window. -/
theorem estimate_spent {now : ℚ} (hnow : tick cfg now = cfg.buckets) :
    full cfg (bumped cfg .empty 0 cfg.limit) now = 0 ∧
      oldest cfg (bumped cfg .empty 0 cfg.limit) now = cfg.limit := by
  constructor
  · unfold full
    rw [sumOf_exact]
    refine List.sum_eq_zero fun x hx => ?_
    obtain ⟨k, hk, rfl⟩ := List.mem_map.mp hx
    have hlt := List.mem_range.mp hk
    rw [hnow, countAt_spent cfg _ (by omega), if_neg (by omega)]
  · rw [oldest, hnow, sub_self, countAt_spent cfg 0 (by omega), if_pos rfl]

/-- The instant `1 / (2 n)` of the window past its end, for `n` no less than the buckets. -/
theorem tick_past {n : ℕ} (hn : cfg.buckets ≤ n) :
    tick cfg (cfg.windowMs + cfg.windowMs / (2 * n)) = cfg.buckets ∧
      weight cfg (cfg.windowMs + cfg.windowMs / (2 * n)) = 1 - cfg.buckets / (2 * n) := by
  have hw := cfg.w_pos
  have hS : (1 : ℚ) ≤ cfg.buckets := by exact_mod_cast cfg.one_le_buckets
  have hSn : (cfg.buckets : ℚ) ≤ n := by exact_mod_cast hn
  have hn0 : (0 : ℚ) < 2 * n := by linarith
  have hnow : cfg.windowMs + cfg.windowMs / (2 * n)
      = (cfg.buckets + cfg.buckets / (2 * n)) * cfg.w := by
    rw [cfg.windowMs_eq]
    ring
  have hpart : (cfg.buckets : ℚ) / (2 * n) ≤ 1 / 2 := by
    rw [div_le_div_iff₀ hn0 two_pos]
    linarith
  have hpart0 : (0 : ℚ) ≤ cfg.buckets / (2 * n) := by positivity
  have htick : tick cfg (cfg.windowMs + cfg.windowMs / (2 * n)) = cfg.buckets := by
    rw [tick, hnow, mul_div_cancel_right₀ _ hw.ne', fl_exact, Int.floor_eq_iff]
    push_cast
    constructor <;> linarith
  refine ⟨htick, ?_⟩
  have helapsed : cfg.windowMs + cfg.windowMs / (2 * n) - ((cfg.buckets : ℤ) : ℚ) * cfg.w
      = cfg.buckets / (2 * n) * cfg.w := by
    rw [hnow]
    push_cast
    ring
  unfold weight
  simp only [fl_exact]
  rw [htick, helapsed, max_eq_right (mul_nonneg hpart0 hw.le)]
  have hdiv : (cfg.w - cfg.buckets / (2 * n) * cfg.w) / cfg.w = 1 - cfg.buckets / (2 * n) := by
    field_simp
  rw [hdiv, max_eq_right (by linarith), min_eq_right (by linarith)]

/-- After the limit was spent at the epoch, whether half of it is free past the window. -/
theorem second_allowed {n : ℕ} (hn : cfg.buckets ≤ n) :
    ((answers (served (check cfg)) none
      [⟨0, cfg.limit⟩, ⟨cfg.windowMs + cfg.windowMs / (2 * n), cfg.limit / 2⟩]).map
        Decision.allowed) = [true, decide (n ≤ cfg.buckets)] := by
  have hlimit := cfg.limit_pos
  have hfirst : (check cfg none 0 cfg.limit).result.allowed = true := by
    rw [check_result, decideBy_allowed]
    simp [full, oldest]
  have hstate : (served (check cfg) none ⟨0, cfg.limit⟩).1
      = some (bumped cfg .empty 0 cfg.limit) := by
    have hdecide := hfirst
    rw [check_result] at hdecide
    unfold served check
    dsimp only
    rw [if_pos hdecide, tick_zero]
    rfl
  obtain ⟨htick, hweight⟩ := tick_past cfg hn
  obtain ⟨hfull, holdest⟩ := estimate_spent cfg htick
  rw [answers, answers, answers, hstate, List.map_cons, List.map_cons, List.map_nil]
  have hsecond : (check cfg (some (bumped cfg .empty 0 cfg.limit))
      (cfg.windowMs + cfg.windowMs / (2 * n)) (cfg.limit / 2)).result.allowed
        = decide (n ≤ cfg.buckets) := by
    rw [Bool.eq_iff_iff, check_result, decideBy_allowed, Option.getD_some, hfull, holdest, hweight,
      decide_eq_true_iff]
    have hn0 : (0 : ℚ) < 2 * n := by
      have hS : (1 : ℚ) ≤ cfg.buckets := by exact_mod_cast cfg.one_le_buckets
      have hSn : (cfg.buckets : ℚ) ≤ n := by exact_mod_cast hn
      linarith
    have hiff : (0 + cfg.limit * (1 - cfg.buckets / (2 * n)) + cfg.limit / 2 ≤ cfg.limit) ↔
        (1 : ℚ) / 2 ≤ cfg.buckets / (2 * n) := by
      constructor <;> intro h <;> nlinarith
    rw [hiff, div_le_div_iff₀ two_pos hn0, one_mul, mul_comm, mul_le_mul_iff_left₀ two_pos]
    exact Nat.cast_le
  rw [← hsecond, ← hfirst]
  rfl

end SlidingWindow

theorem not_alike_sliding_limit {cfg cfg' : SlidingWindow.Config} (h : cfg.limit ≠ cfg'.limit) :
    ¬ Alike (.slidingWindow cfg) (.slidingWindow cfg') := by
  refine not_alike_of_limit h ?_ ?_
  · exact (congrArg Decision.limit (SlidingWindow.check_result cfg none 0 1)).trans
      SlidingWindow.decideBy_limit
  · exact (congrArg Decision.limit (SlidingWindow.check_result cfg' none 0 1)).trans
      SlidingWindow.decideBy_limit

theorem not_alike_sliding_window {cfg cfg' : SlidingWindow.Config}
    (hbuckets : cfg'.buckets = cfg.buckets) (h : cfg'.windowMs = cfg.windowMs + 1) :
    ¬ Alike (.slidingWindow cfg) (.slidingWindow cfg') := by
  refine not_alike_of_resetAt 0 1 ?_
  show (SlidingWindow.check cfg none 0 1).result.resetAt
    ≠ (SlidingWindow.check cfg' none 0 1).result.resetAt
  rw [SlidingWindow.check_result, SlidingWindow.check_result, SlidingWindow.decideBy_resetAt_eq,
    SlidingWindow.decideBy_resetAt_eq, SlidingWindow.tick_zero, SlidingWindow.tick_zero]
  refine ceil_ne_ceil_add ?_
  have hS : (1 : ℚ) ≤ cfg.buckets := by exact_mod_cast cfg.one_le_buckets
  have hw : cfg'.w = cfg.w + 1 / cfg.buckets := by
    rw [SlidingWindow.Config.w, SlidingWindow.Config.w, hbuckets, h, fl_exact, fl_exact]
    ring
  have hpos : (0 : ℚ) ≤ 1 / cfg.buckets := by positivity
  rw [hw, h]
  push_cast
  linarith

theorem not_alike_sliding_buckets {cfg cfg' : SlidingWindow.Config}
    (hlimit : cfg'.limit = cfg.limit)
    (hwindow : cfg'.windowMs = cfg.windowMs) (h : cfg.buckets < cfg'.buckets) :
    ¬ Alike (.slidingWindow cfg) (.slidingWindow cfg') := by
  intro halike
  have hfew := SlidingWindow.second_allowed cfg h.le
  have hmany := SlidingWindow.second_allowed cfg' le_rfl
  rw [hlimit, hwindow] at hmany
  have heq := congrArg (List.map Decision.allowed) (halike [⟨0, cfg.limit⟩,
    ⟨cfg.windowMs + cfg.windowMs / (2 * cfg'.buckets), cfg.limit / 2⟩])
  change List.map Decision.allowed (answers (served (SlidingWindow.check cfg)) none _)
    = List.map Decision.allowed (answers (served (SlidingWindow.check cfg')) none _) at heq
  rw [hfew, hmany] at heq
  simp at heq
  omega

/-! ### Quotas -/

namespace Quota

theorem check_limit (cfg : Config) (state : Option State) (now cost : ℚ) :
    (check cfg state now cost).result.limit = cfg.limit := by
  unfold check
  dsimp only
  split <;> rfl

theorem check_resetAt (cfg : Config) (state : Option State) (now cost : ℚ) :
    (check cfg state now cost).result.resetAt = ⌈(cfg.resetCadence.bounds now).reset⌉ := by
  unfold check
  dsimp only
  split <;> rfl

/-- A quota goes by its limit and the bounds of its periods. -/
theorem check_congr {cfg cfg' : Config} (hlimit : cfg.limit = cfg'.limit)
    (httl : cfg.resetCadence.ttlMs = cfg'.resetCadence.ttlMs)
    (hbounds : ∀ now, cfg.resetCadence.bounds now = cfg'.resetCadence.bounds now) :
    check cfg = check cfg' := by
  funext state now cost
  unfold check
  rw [hlimit, httl, hbounds]

end Quota

theorem alike_quota {cfg cfg' : Quota.Config} (h : Quota.check cfg = Quota.check cfg') :
    Alike (.quota cfg) (.quota cfg') := by
  intro calls
  show answers (served (Quota.check cfg)) none calls
    = answers (served (Quota.check cfg')) none calls
  rw [h]

theorem not_alike_quota_limit {cfg cfg' : Quota.Config} (h : cfg.limit ≠ cfg'.limit) :
    ¬ Alike (.quota cfg) (.quota cfg') :=
  not_alike_of_limit h (Quota.check_limit cfg none 0 1) (Quota.check_limit cfg' none 0 1)

/-- Quotas whose periods end at different milliseconds. -/
theorem not_alike_quota_reset {cfg cfg' : Quota.Config} (now : ℚ)
    (h : ⌈(cfg.resetCadence.bounds now).reset⌉ ≠ ⌈(cfg'.resetCadence.bounds now).reset⌉) :
    ¬ Alike (.quota cfg) (.quota cfg') := by
  refine not_alike_of_resetAt now 1 ?_
  show (Quota.check cfg none now 1).result.resetAt ≠ (Quota.check cfg' none now 1).result.resetAt
  rw [Quota.check_resetAt, Quota.check_resetAt]
  exact_mod_cast h

theorem not_alike_fixed_period {l l' p : ℚ} {a : ℤ} (hp : 0 < p) (hp' : 0 < p + 1) (hl : 0 < l)
    (hl' : 0 < l') :
    ¬ Alike (.quota ⟨l, .fixed p a hp, hl⟩) (.quota ⟨l', .fixed (p + 1) a hp', hl'⟩) := by
  refine not_alike_quota_reset a ?_
  have hne := ceil_ne_ceil_add (x := a + p) (y := a + (p + 1)) (by linarith)
  show ⌈(a : ℚ) + ⌊((a : ℚ) - a) / p⌋ * p + p⌉
    ≠ ⌈(a : ℚ) + ⌊((a : ℚ) - a) / (p + 1)⌋ * (p + 1) + (p + 1)⌉
  rw [sub_self, zero_div, zero_div, Int.floor_zero, Int.cast_zero, zero_mul, zero_mul, add_zero]
  exact_mod_cast hne

/-- **Anchors a millisecond apart are told apart**, unless the period divides a millisecond. -/
theorem not_alike_anchor {l p : ℚ} {a : ℤ} (hp : 0 < p) (hl : 0 < l) (h : ∀ k : ℤ, k * p ≠ 1) :
    ¬ Alike (.quota ⟨l, .fixed p a hp, hl⟩) (.quota ⟨l, .fixed p (a + 1) hp, hl⟩) := by
  -- `now` starts the last period from `a` before `a + 1`, where one from `a + 1` ends.
  obtain ⟨k, hk⟩ : ∃ k : ℤ, k = ⌊1 / p⌋ := ⟨_, rfl⟩
  have hle : k * p ≤ 1 := by
    rw [hk]
    exact (le_div_iff₀ hp).mp (Int.floor_le (1 / p))
  have hlt : k * p < 1 := lt_of_le_of_ne hle (h k)
  have hgt : 1 < (k + 1) * p := by
    rw [hk]
    exact (div_lt_iff₀ hp).mp (Int.lt_floor_add_one (1 / p))
  refine not_alike_quota_reset (a + k * p) ?_
  show ⌈(a : ℚ) + ⌊((a : ℚ) + k * p - a) / p⌋ * p + p⌉
    ≠ ⌈((a + 1 : ℤ) : ℚ) + ⌊((a : ℚ) + k * p - (a + 1 : ℤ)) / p⌋ * p + p⌉
  have hown : ⌊((a : ℚ) + k * p - a) / p⌋ = k := by
    rw [add_sub_cancel_left, mul_div_cancel_right₀ _ hp.ne', Int.floor_intCast]
  have hother : ⌊((a : ℚ) + k * p - (a + 1 : ℤ)) / p⌋ = -1 := by
    rw [Int.floor_eq_iff, le_div_iff₀ hp, div_lt_iff₀ hp]
    push_cast
    constructor <;> linarith
  rw [hown, hother]
  have hpast : a + 1 < ⌈(a : ℚ) + k * p + p⌉ := by
    rw [Int.lt_ceil]
    push_cast
    linarith
  have hend : ((a + 1 : ℤ) : ℚ) + ((-1 : ℤ) : ℚ) * p + p = ((a + 1 : ℤ) : ℚ) := by
    push_cast
    ring
  rw [hend, Int.ceil_intCast]
  exact hpast.ne'

/-- **Where the period divides a millisecond, every anchor gives the same periods.** -/
theorem alike_anchor {l p : ℚ} {a a' k : ℤ} (hp : 0 < p) (hl : 0 < l) (hk : k * p = 1) :
    Alike (.quota ⟨l, .fixed p a hp, hl⟩) (.quota ⟨l, .fixed p a' hp, hl⟩) := by
  refine alike_quota (Quota.check_congr rfl rfl fun now => ?_)
  have hshift : (now - a') / p = (now - a) / p + ((a - a') * k : ℤ) := by
    have hone : ((a : ℚ) - a') = ((a - a') * k : ℤ) * p := by
      push_cast
      rw [mul_assoc, hk, mul_one]
    rw [← sub_add_sub_cancel now (a : ℚ) a', add_div, hone, mul_div_cancel_right₀ _ hp.ne']
  have hstart : (a' : ℚ) + ⌊(now - a') / p⌋ * p = a + ⌊(now - a) / p⌋ * p := by
    rw [hshift, Int.floor_add_intCast]
    push_cast
    have hone : ((a : ℚ) - a') * k * p = a - a' := by rw [mul_assoc, hk, mul_one]
    linarith
  show (⟨(a : ℚ) + ⌊(now - a) / p⌋ * p, (a : ℚ) + ⌊(now - a) / p⌋ * p + p⟩ : Calendar.Period)
    = ⟨(a' : ℚ) + ⌊(now - a') / p⌋ * p, (a' : ℚ) + ⌊(now - a') / p⌋ * p + p⟩
  rw [hstart]

theorem calendar_reset (cadence : Calendar.CalendarCadence) (now : ℚ) (o w : ℤ) :
    ⌈(Quota.Cadence.bounds now (.calendar cadence o w)).reset⌉
      = (Calendar.periodDays cadence w (Calendar.dayOf now (Quota.offsetMs o))).2
          * Calendar.msPerDay - Quota.offsetMs o :=
  Int.ceil_intCast _

theorem dayOf_intCast (n off : ℤ) : Calendar.dayOf (n : ℚ) off = (n + off) / 86400000 := by
  unfold Calendar.dayOf Calendar.msPerDay
  rw [← Int.cast_add]
  exact Rat.floor_intCast_div_natCast (n + off) 86400000

/-- Offsets a minute apart. -/
theorem not_alike_offset {cadence : Calendar.CalendarCadence} {l : ℚ} {o o' w : ℤ} (hl : 0 < l)
    (h : o' = o + 1 ∨ o' = o - 1) :
    ¬ Alike (.quota ⟨l, .calendar cadence o w, hl⟩) (.quota ⟨l, .calendar cadence o' w, hl⟩) := by
  -- It is the same day for both.
  have hday : ∀ x : ℤ, x = o ∨ x = o' →
      Calendar.dayOf ((43200000 - o * 60000 : ℤ) : ℚ) (Quota.offsetMs x) = 0 := by
    intro x hx
    rw [dayOf_intCast, Quota.offsetMs]
    omega
  refine not_alike_quota_reset ((43200000 - o * 60000 : ℤ) : ℚ) ?_
  rw [calendar_reset, calendar_reset, hday o (.inl rfl), hday o' (.inr rfl)]
  unfold Quota.offsetMs
  omega

/-- Weeks that start on different days. -/
theorem not_alike_week {l : ℚ} {o w w' : ℤ} (hl : 0 < l) (hw : 0 ≤ w ∧ w ≤ 6)
    (hw' : 0 ≤ w' ∧ w' ≤ 6) (hne : w ≠ w') :
    ¬ Alike (.quota ⟨l, .calendar .week o w, hl⟩) (.quota ⟨l, .calendar .week o w', hl⟩) := by
  have hday : Calendar.dayOf (((w + 3) * 86400000 - o * 60000 : ℤ) : ℚ) (Quota.offsetMs o)
      = w + 3 := by
    rw [dayOf_intCast, Quota.offsetMs]
    omega
  refine not_alike_quota_reset (((w + 3) * 86400000 - o * 60000 : ℤ) : ℚ) ?_
  rw [calendar_reset, calendar_reset, hday]
  unfold Calendar.periodDays Calendar.msPerDay
  dsimp only
  omega

/-- Only weeks go by the day they start on. -/
theorem alike_week {cadence : Calendar.CalendarCadence} {l : ℚ} {o w w' : ℤ} (hl : 0 < l)
    (h : cadence ≠ .week) :
    Alike (.quota ⟨l, .calendar cadence o w, hl⟩) (.quota ⟨l, .calendar cadence o w', hl⟩) := by
  cases cadence with
  | week => exact absurd rfl h
  | month => exact fun _ => rfl
  | day => exact fun _ => rfl

theorem Alike.symm {m m' : Peekable} (h : Alike m m') : Alike m' m := fun calls => (h calls).symm

/-- A rolling quota decides as its sliding window. -/
theorem alike_rolling_iff {cfg cfg' : SlidingWindow.Config} :
    Alike (.rollingQuota cfg) (.rollingQuota cfg')
      ↔ Alike (.slidingWindow cfg) (.slidingWindow cfg') := Iff.rfl

end ThrottleKit
