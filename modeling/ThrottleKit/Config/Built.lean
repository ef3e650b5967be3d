import ThrottleKit.Config.BuildStrategy

/-!
# When a spec builds, and what

Every constructor is taken to what it asks of its options, and to the strategy it gives then. A
builder of several checks in a row is undone check by check.

## Main results

* `gcra_eq_ok`, `tokenBucket_eq_ok`, `fixedWindow_eq_ok`, `slidingWindowConfig_eq_ok`,
  `slidingWindowLog_eq_ok`, `quota_rolling`, `quota_not_rolling` — the constructors
* `buildStrategy_gcra` and so on — the specs that build
-/

namespace ThrottleKit.BuildStrategy

open JsonValue

/-! ### Validators -/

theorem bind_eq_ok {ε α β : Type} {x : Except ε α} {f : α → Except ε β} {b : β} :
    x >>= f = .ok b ↔ ∃ a, x = .ok a ∧ f a = .ok b := by
  cases x with
  | error e =>
    constructor
    · intro h
      cases h
    · rintro ⟨a, h, -⟩
      cases h
  | ok a =>
    constructor
    · intro h
      exact ⟨a, rfl, h⟩
    · rintro ⟨a', h, hf⟩
      rw [Except.ok.inj h]
      exact hf

theorem requirePositive_eq_ok {field : String} {value : Option JsonValue} {x : {x : ℚ // 0 < x}} :
    requirePositive field value = .ok x ↔ value = some (.num x.1) := by
  unfold requirePositive
  constructor
  · intro h
    split at h
    · split at h
      · rw [← Except.ok.inj h]
      · cases h
    · cases h
  · rintro rfl
    exact dif_pos x.2

theorem requireAtLeast_eq_ok {field : String} {value : Option JsonValue} {min : ℚ}
    {x : {x : ℚ // min ≤ x}} :
    requireAtLeast field value min = .ok x ↔ value = some (.num x.1) := by
  unfold requireAtLeast
  constructor
  · intro h
    split at h
    · split at h
      · rw [← Except.ok.inj h]
      · cases h
    · cases h
  · rintro rfl
    exact dif_pos x.2

theorem requireInteger_eq_ok {field : String} {value : Option JsonValue} {n : ℤ} :
    requireInteger field value = .ok n ↔ value = some (.num n) := by
  unfold requireInteger
  constructor
  · intro h
    split at h
    · rename_i x
      split at h
      · rename_i hden
        rw [← Except.ok.inj h, Rat.den_eq_one_iff x |>.mp hden]
      · cases h
    · cases h
  · rintro rfl
    exact if_pos rfl

theorem required_eq_ok {field : String} {value : Option JsonValue} {j : JsonValue} :
    required field value = .ok j ↔ value = some j ∧ j ≠ .null := by
  unfold required
  constructor
  · intro h
    split at h
    · cases h
    · cases h
    · rename_i j' hnull
      obtain rfl := Except.ok.inj h
      exact ⟨rfl, fun hj => hnull (by rw [hj])⟩
  · rintro ⟨rfl, hnull⟩
    split
    · rename_i h
      cases h
    · rename_i h
      exact absurd (Option.some.inj h) hnull
    · rename_i j' _ h
      rw [Option.some.inj h]

/-! ### Constructors -/

section Constructors

variable {m : Peekable}

theorem gcra_eq_ok {limit periodMs burst : Option JsonValue} :
    gcra limit periodMs burst = .ok m ↔ ∃ (l p b : ℚ) (hl : 0 < l) (hp : 0 < p) (hb : 1 ≤ b),
      limit = some (.num l) ∧ periodMs = some (.num p) ∧ orElse burst limit = some (.num b) ∧
        p / l ≤ maxSafeInteger ∧ m = .gcra ⟨l, p, b, hl, hp, hb⟩ := by
  unfold gcra
  simp only [bind_eq_ok, requirePositive_eq_ok, requireAtLeast_eq_ok]
  constructor
  · rintro ⟨⟨l, hl⟩, hlimit, ⟨p, hp⟩, hperiod, ⟨b, hb⟩, hburst, h⟩
    split at h
    · cases h
    · rename_i hle
      exact ⟨l, p, b, hl, hp, hb, hlimit, hperiod, hburst, not_lt.mp hle, (Except.ok.inj h).symm⟩
  · rintro ⟨l, p, b, hl, hp, hb, hlimit, hperiod, hburst, hle, rfl⟩
    exact ⟨⟨l, hl⟩, hlimit, ⟨p, hp⟩, hperiod, ⟨b, hb⟩, hburst, if_neg (not_lt.mpr hle)⟩

theorem tokenBucket_eq_ok {capacity refillPerSec : Option JsonValue} :
    tokenBucket capacity refillPerSec = .ok m ↔ ∃ (c r : ℚ) (hc : 0 < c) (hr : 0 < r),
      capacity = some (.num c) ∧ refillPerSec = some (.num r) ∧
        (⟨c, r, hc, hr⟩ : TokenBucket.Config).ttlMs ≤ maxSafeInteger ∧
          m = .tokenBucket ⟨c, r, hc, hr⟩ := by
  unfold tokenBucket
  simp only [bind_eq_ok, requirePositive_eq_ok]
  constructor
  · rintro ⟨⟨c, hc⟩, hcapacity, ⟨r, hr⟩, hrefill, h⟩
    split at h
    · cases h
    · rename_i hle
      exact ⟨c, r, hc, hr, hcapacity, hrefill, not_lt.mp hle, (Except.ok.inj h).symm⟩
  · rintro ⟨c, r, hc, hr, hcapacity, hrefill, hle, rfl⟩
    exact ⟨⟨c, hc⟩, hcapacity, ⟨r, hr⟩, hrefill, if_neg (not_lt.mpr hle)⟩

theorem fixedWindow_eq_ok {limit windowMs : Option JsonValue} :
    fixedWindow limit windowMs = .ok m ↔ ∃ (l w : ℚ) (hl : 0 < l) (hw : 0 < w),
      limit = some (.num l) ∧ windowMs = some (.num w) ∧ m = .fixedWindow ⟨l, w, hl, hw⟩ := by
  unfold fixedWindow
  simp only [bind_eq_ok, requirePositive_eq_ok]
  constructor
  · rintro ⟨⟨l, hl⟩, hlimit, ⟨w, hw⟩, hwindow, h⟩
    exact ⟨l, w, hl, hw, hlimit, hwindow, (Except.ok.inj h).symm⟩
  · rintro ⟨l, w, hl, hw, hlimit, hwindow, rfl⟩
    exact ⟨⟨l, hl⟩, hlimit, ⟨w, hw⟩, hwindow, rfl⟩

theorem slidingWindowLog_eq_ok {limit windowMs : Option JsonValue} :
    slidingWindowLog limit windowMs = .ok m ↔ ∃ (l w : ℚ) (hl : 0 < l) (hw : 0 < w),
      limit = some (.num l) ∧ windowMs = some (.num w) ∧ m = .slidingWindowLog ⟨l, w, hl, hw⟩ := by
  unfold slidingWindowLog
  simp only [bind_eq_ok, requirePositive_eq_ok]
  constructor
  · rintro ⟨⟨l, hl⟩, hlimit, ⟨w, hw⟩, hwindow, h⟩
    exact ⟨l, w, hl, hw, hlimit, hwindow, (Except.ok.inj h).symm⟩
  · rintro ⟨l, w, hl, hw, hlimit, hwindow, rfl⟩
    exact ⟨⟨l, hl⟩, hlimit, ⟨w, hw⟩, hwindow, rfl⟩

theorem slidingWindowConfig_eq_ok {limit windowMs buckets : Option JsonValue}
    {cfg : SlidingWindow.Config} :
    slidingWindowConfig limit windowMs buckets = .ok cfg ↔
      limit = some (.num cfg.limit) ∧ windowMs = some (.num cfg.windowMs) ∧
        orElse buckets (some (.num 10)) = some (.num cfg.buckets) ∧ cfg.buckets ≤ 100000 := by
  unfold slidingWindowConfig
  simp only [bind_eq_ok, requirePositive_eq_ok, requireInteger_eq_ok]
  constructor
  · rintro ⟨⟨l, hl⟩, hlimit, ⟨w, hw⟩, hwindow, S, hS, h⟩
    split at h
    · split at h
      · cases h
      · rename_i h1 hle
        rw [← Except.ok.inj h]
        have hcast : ((S.toNat : ℕ) : ℚ) = S := by exact_mod_cast Int.toNat_of_nonneg (by omega)
        refine ⟨hlimit, hwindow, ?_, by dsimp only; omega⟩
        rw [hS, hcast]
    · cases h
  · rintro ⟨hlimit, hwindow, hS, hle⟩
    obtain ⟨l, w, S, hl, hw, h1⟩ := cfg
    refine ⟨⟨l, hl⟩, hlimit, ⟨w, hw⟩, hwindow, S, by exact_mod_cast hS, ?_⟩
    rw [dif_pos (by exact_mod_cast h1), if_neg (by exact_mod_cast not_lt.mpr hle)]
    rfl

theorem quota_rolling
    {limit periodMs anchor offsetMinutes weekStartsOn buckets : Option JsonValue} :
    quota limit (.str "rolling") periodMs anchor offsetMinutes weekStartsOn buckets = .ok m ↔
      ∃ cfg, slidingWindowConfig limit periodMs buckets = .ok cfg ∧ m = .rollingQuota cfg := by
  unfold quota
  simp only [bind_eq_ok, requirePositive_eq_ok]
  constructor
  · rintro ⟨l, hlimit, h⟩
    rw [if_pos (isStr_self "rolling")] at h
    obtain ⟨p, hperiod, h⟩ := bind_eq_ok.mp h
    obtain ⟨cfg, hcfg, h⟩ := bind_eq_ok.mp h
    exact ⟨cfg, hcfg, (Except.ok.inj h).symm⟩
  · rintro ⟨cfg, hcfg, rfl⟩
    obtain ⟨hlimit, hperiod, -, -⟩ := slidingWindowConfig_eq_ok.mp hcfg
    refine ⟨⟨cfg.limit, cfg.limit_pos⟩, hlimit, ?_⟩
    rw [if_pos (isStr_self "rolling")]
    exact bind_eq_ok.mpr ⟨⟨cfg.windowMs, cfg.windowMs_pos⟩, requirePositive_eq_ok.mpr hperiod,
      bind_eq_ok.mpr ⟨cfg, hcfg, rfl⟩⟩

/-- The options that every other cadence checks, whether it goes by them or not. -/
structure WindowOptions (anchor offsetMinutes weekStartsOn : Option JsonValue) (a o w : ℤ) :
    Prop where
  offsetMinutes : integerOr "quota.offsetMinutes" offsetMinutes 0 = .ok o
  offset_mem : -840 ≤ o ∧ o ≤ 840
  weekStartsOn : integerOr "quota.weekStartsOn" weekStartsOn 1 = .ok w
  week_mem : 0 ≤ w ∧ w ≤ 6
  anchor : integerOr "quota.anchor" anchor 0 = .ok a

theorem quota_not_rolling {limit periodMs anchor offsetMinutes weekStartsOn buckets :
    Option JsonValue} {cadence : JsonValue} (hcadence : isStr (some cadence) "rolling" = false) :
    quota limit cadence periodMs anchor offsetMinutes weekStartsOn buckets = .ok m ↔
      ∃ (l : ℚ) (hl : 0 < l) (a o w : ℤ), limit = some (.num l) ∧
        WindowOptions anchor offsetMinutes weekStartsOn a o w ∧
        if isStr (some cadence) "fixed" = true then
          ∃ (p : ℚ) (hp : 0 < p), periodMs = some (.num p) ∧ m = .quota ⟨l, .fixed p a hp, hl⟩
        else ∃ c, calendarCadence cadence = some c ∧ m = .quota ⟨l, .calendar c o w, hl⟩ := by
  unfold quota
  rw [bind_eq_ok]
  constructor
  · rintro ⟨⟨l, hl⟩, hlimit, h⟩
    dsimp only at h
    rw [if_neg (by rw [hcadence]; exact Bool.false_ne_true)] at h
    obtain ⟨o, ho, h⟩ := bind_eq_ok.mp h
    split at h
    · cases h
    · rename_i hrange
      obtain ⟨w, hw, h⟩ := bind_eq_ok.mp h
      split at h
      · cases h
      · rename_i hweek
        obtain ⟨a, ha, h⟩ := bind_eq_ok.mp h
        refine ⟨l, hl, a, o, w, requirePositive_eq_ok.mp hlimit,
          ⟨ho, by omega, hw, by omega, ha⟩, ?_⟩
        split at h
        · rename_i hfixed
          obtain ⟨⟨p, hp⟩, hperiod, h⟩ := bind_eq_ok.mp h
          rw [if_pos hfixed]
          exact ⟨p, hp, requirePositive_eq_ok.mp hperiod, (Except.ok.inj h).symm⟩
        · rename_i hfixed
          rw [if_neg hfixed]
          split at h
          · rename_i c hc
            exact ⟨c, hc, (Except.ok.inj h).symm⟩
          · cases h
  · rintro ⟨l, hl, a, o, w, hlimit, ⟨ho, hrange, hw, hweek, ha⟩, h⟩
    refine ⟨⟨l, hl⟩, requirePositive_eq_ok.mpr hlimit, ?_⟩
    dsimp only
    rw [if_neg (by rw [hcadence]; exact Bool.false_ne_true)]
    refine bind_eq_ok.mpr ⟨o, ho, ?_⟩
    rw [if_neg (by omega)]
    refine bind_eq_ok.mpr ⟨w, hw, ?_⟩
    rw [if_neg (by omega)]
    refine bind_eq_ok.mpr ⟨a, ha, ?_⟩
    split at h
    · rename_i hfixed
      obtain ⟨p, hp, hperiod, rfl⟩ := h
      rw [if_pos hfixed]
      exact bind_eq_ok.mpr ⟨⟨p, hp⟩, requirePositive_eq_ok.mpr hperiod, rfl⟩
    · rename_i hfixed
      obtain ⟨c, hc, rfl⟩ := h
      rw [if_neg hfixed, hc]
      rfl

end Constructors

/-! ### Specs -/

section Specs

variable {name : String} {spec : JsonValue} {m : Peekable}

theorem periodOrMs_num {period msField : Option JsonValue} {x : ℚ} (hx : 0 < x)
    (h : period = some (.num x) ∨ period = none ∧ msField = some (.num x)) :
    periodOrMs name period msField = .ok (.num x) := by
  rcases h with rfl | ⟨rfl, rfl⟩
  · show (parseDuration (.num x)).map _ = _
    rw [parseDuration, requirePositive_eq_ok (x := ⟨x, hx⟩) |>.mpr rfl]
    rfl
  · rfl

theorem quotaPeriod_num {period periodMs : Option JsonValue} {x : ℚ} (hx : 0 < x)
    (h : period = some (.num x) ∨ period = none ∧ periodMs = some (.num x)) :
    quotaPeriod period periodMs = .ok (some (.num x)) := by
  rcases h with rfl | ⟨rfl, rfl⟩
  · show (parseDuration (.num x)).map _ = _
    rw [parseDuration, requirePositive_eq_ok (x := ⟨x, hx⟩) |>.mpr rfl]
    rfl
  · rfl

theorem buildStrategy_gcra (h : spec.get "strategy" = some (.str "gcra")) :
    buildStrategy name spec = .ok m ↔ ∃ (l p b : ℚ) (hl : 0 < l) (hp : 0 < p) (hb : 1 ≤ b),
      spec.get "limit" = some (.num l) ∧
      periodOrMs name (spec.get "period") (orElse (spec.get "periodMs") (spec.get "windowMs"))
        = .ok (.num p) ∧
      orElse (spec.get "burst") (spec.get "limit") = some (.num b) ∧ p / l ≤ maxSafeInteger ∧
        m = .gcra ⟨l, p, b, hl, hp, hb⟩ := by
  unfold buildStrategy
  rw [h]
  simp only [bind_eq_ok, gcra_eq_ok, required_eq_ok]
  constructor
  · rintro ⟨limit, ⟨hlimit, -⟩, period, hperiod, l, p, b, hl, hp, hb, hl', hp', hburst, hle, rfl⟩
    obtain rfl := Option.some.inj hl'
    obtain rfl := Option.some.inj hp'
    rw [← hlimit] at hburst
    exact ⟨l, p, b, hl, hp, hb, hlimit, hperiod, hburst, hle, rfl⟩
  · rintro ⟨l, p, b, hl, hp, hb, hlimit, hperiod, hburst, hle, rfl⟩
    rw [hlimit] at hburst
    exact ⟨.num l, ⟨hlimit, by simp⟩, .num p, hperiod, l, p, b, hl, hp, hb, rfl, rfl, hburst, hle,
      rfl⟩

theorem buildStrategy_tokenBucket (h : spec.get "strategy" = some (.str "tokenBucket")) :
    buildStrategy name spec = .ok m ↔ ∃ (c r : ℚ) (hc : 0 < c) (hr : 0 < r),
      spec.get "capacity" = some (.num c) ∧ spec.get "refillPerSec" = some (.num r) ∧
        (⟨c, r, hc, hr⟩ : TokenBucket.Config).ttlMs ≤ maxSafeInteger ∧
          m = .tokenBucket ⟨c, r, hc, hr⟩ := by
  unfold buildStrategy
  rw [h]
  simp only [bind_eq_ok, tokenBucket_eq_ok, required_eq_ok]
  constructor
  · rintro ⟨capacity, ⟨hcapacity, -⟩, refill, ⟨hrefill, -⟩, c, r, hc, hr, hc', hr', hle, rfl⟩
    obtain rfl := Option.some.inj hc'
    obtain rfl := Option.some.inj hr'
    exact ⟨c, r, hc, hr, hcapacity, hrefill, hle, rfl⟩
  · rintro ⟨c, r, hc, hr, hcapacity, hrefill, hle, rfl⟩
    exact ⟨.num c, ⟨hcapacity, by simp⟩, .num r, ⟨hrefill, by simp⟩, c, r, hc, hr, rfl, rfl, hle,
      rfl⟩

/-- The window of a strategy that goes by `limit` and a window. -/
def Windowed (name : String) (spec : JsonValue) (l w : ℚ) : Prop :=
  spec.get "limit" = some (.num l) ∧
    periodOrMs name (spec.get "period") (spec.get "windowMs") = .ok (.num w)

theorem buildStrategy_fixedWindow (h : spec.get "strategy" = some (.str "fixedWindow")) :
    buildStrategy name spec = .ok m ↔ ∃ (l w : ℚ) (hl : 0 < l) (hw : 0 < w),
      Windowed name spec l w ∧ m = .fixedWindow ⟨l, w, hl, hw⟩ := by
  unfold buildStrategy
  rw [h]
  simp only [bind_eq_ok, fixedWindow_eq_ok, required_eq_ok]
  constructor
  · rintro ⟨limit, ⟨hlimit, -⟩, window, hwindow, l, w, hl, hw, hl', hw', rfl⟩
    obtain rfl := Option.some.inj hl'
    obtain rfl := Option.some.inj hw'
    exact ⟨l, w, hl, hw, ⟨hlimit, hwindow⟩, rfl⟩
  · rintro ⟨l, w, hl, hw, ⟨hlimit, hwindow⟩, rfl⟩
    exact ⟨.num l, ⟨hlimit, by simp⟩, .num w, hwindow, l, w, hl, hw, rfl, rfl, rfl⟩

theorem buildStrategy_slidingWindowLog (h : spec.get "strategy" = some (.str "slidingWindowLog")) :
    buildStrategy name spec = .ok m ↔ ∃ (l w : ℚ) (hl : 0 < l) (hw : 0 < w),
      Windowed name spec l w ∧ m = .slidingWindowLog ⟨l, w, hl, hw⟩ := by
  unfold buildStrategy
  rw [h]
  simp only [bind_eq_ok, slidingWindowLog_eq_ok, required_eq_ok]
  constructor
  · rintro ⟨limit, ⟨hlimit, -⟩, window, hwindow, l, w, hl, hw, hl', hw', rfl⟩
    obtain rfl := Option.some.inj hl'
    obtain rfl := Option.some.inj hw'
    exact ⟨l, w, hl, hw, ⟨hlimit, hwindow⟩, rfl⟩
  · rintro ⟨l, w, hl, hw, ⟨hlimit, hwindow⟩, rfl⟩
    exact ⟨.num l, ⟨hlimit, by simp⟩, .num w, hwindow, l, w, hl, hw, rfl, rfl, rfl⟩

theorem buildStrategy_slidingWindow (h : spec.get "strategy" = some (.str "slidingWindow")) :
    buildStrategy name spec = .ok m ↔ ∃ cfg : SlidingWindow.Config,
      Windowed name spec cfg.limit cfg.windowMs ∧
      orElse (spec.get "buckets") (some (.num 10)) = some (.num cfg.buckets) ∧
        cfg.buckets ≤ 100000 ∧ m = .slidingWindow cfg := by
  unfold buildStrategy slidingWindow
  rw [h]
  simp only [bind_eq_ok, slidingWindowConfig_eq_ok, required_eq_ok]
  constructor
  · rintro ⟨limit, ⟨hlimit, -⟩, window, hwindow, cfg, ⟨hl, hw, hbuckets, hle⟩, hm⟩
    obtain rfl := Option.some.inj hl
    obtain rfl := Option.some.inj hw
    exact ⟨cfg, ⟨hlimit, hwindow⟩, hbuckets, hle, (Except.ok.inj hm).symm⟩
  · rintro ⟨cfg, ⟨hlimit, hwindow⟩, hbuckets, hle, rfl⟩
    exact ⟨.num cfg.limit, ⟨hlimit, by simp⟩, .num cfg.windowMs, hwindow, cfg,
      ⟨rfl, rfl, hbuckets, hle⟩, rfl⟩

theorem buildStrategy_quota (h : spec.get "strategy" = some (.str "quota")) :
    buildStrategy name spec = .ok m ↔ ∃ cadence period limit,
      spec.get "resetCadence" = some cadence ∧
      quotaPeriod (spec.get "period") (spec.get "periodMs") = .ok period ∧
      spec.get "limit" = some limit ∧ limit ≠ .null ∧
      quota (some limit) cadence period (spec.get "anchor") (spec.get "offsetMinutes")
        (spec.get "weekStartsOn") (spec.get "buckets") = .ok m := by
  unfold buildStrategy
  rw [h]
  cases hcadence : spec.get "resetCadence" with
  | none => simp
  | some cadence =>
    dsimp only
    simp only [bind_eq_ok, required_eq_ok]
    constructor
    · rintro ⟨period, hperiod, limit, ⟨hlimit, hnull⟩, hquota⟩
      exact ⟨cadence, period, limit, rfl, hperiod, hlimit, hnull, hquota⟩
    · rintro ⟨cadence', period, limit, hcadence', hperiod, hlimit, hnull, hquota⟩
      obtain rfl := Option.some.inj hcadence'
      exact ⟨period, hperiod, limit, ⟨hlimit, hnull⟩, hquota⟩

end Specs

end ThrottleKit.BuildStrategy
