import ThrottleKit.Replay.Alike
import ThrottleKit.Replay.Candidate

/-!
# Deltas that change nothing

A field is read by the builder when the builder branches on it, or when some other value of it
builds a strategy that decides differently. Whatever the resolved strategy is listed to read, and
nothing takes precedence over, is read, but for two kinds of fields. The lists are by strategy, and
a quota leaves some of its fields alone, which ones depending on its cadence; and `prefix` is on
every list, although no builder looks at it.

An anchor makes no difference either where the period of a fixed cadence divides a millisecond.

## Main definitions

* `Read` — whether the builder reads a field
* `Used` — the fields it reads, of those that may be written

## Main results

* `effective_anchor_iff` — the anchors that make a difference
* `read_iff_used` — a field that the guards let through
* `written_fields_read_iff` — an accepted candidate writes no inert field just if all are used
-/

namespace ThrottleKit.Candidates

open JsonValue BuildStrategy

/-- Some other value of the field builds a strategy that decides differently. -/
def Effective (name : String) (spec : JsonValue) (path : String) : Prop :=
  ∃ value m m', buildStrategy name spec = .ok m ∧
    buildStrategy name (write spec path value) = .ok m' ∧ ¬ Alike m m'

/-- The builder branches on the field. -/
def Selects (spec : JsonValue) (path : String) : Prop :=
  path = "strategy" ∨ path = "resetCadence" ∧ spec.get "strategy" = some (.str "quota")

/-- The builder reads the field. -/
def Read (name : String) (spec : JsonValue) (path : String) : Prop :=
  Selects spec path ∨ Effective name spec path

/-- The fields that a quota of a cadence leaves alone. -/
def ignoredByQuota : JsonValue → List String
  | .str "rolling" => ["anchor", "offsetMinutes", "weekStartsOn"]
  | .str "fixed" => ["offsetMinutes", "weekStartsOn", "buckets"]
  | .str "calendar-week" => ["period", "periodMs", "anchor", "buckets"]
  | _ => ["period", "periodMs", "anchor", "weekStartsOn", "buckets"]

/-- The fields that are used, for a strategy and a cadence of given fields. -/
structure Used (field : String → Option JsonValue) (path : String) : Prop where
  not_prefix : path ≠ "prefix"
  quota : field "strategy" = some (.str "quota") → ∀ cadence, field "resetCadence" = some cadence →
    path ∉ ignoredByQuota cadence
  anchor : field "strategy" = some (.str "quota") → path = "anchor" → ∀ p : ℚ,
    quotaPeriod (field "period") (field "periodMs") = .ok (some (.num p)) → ∀ k : ℤ, k * p ≠ 1

/-! ### What other values build -/

section Written

variable {name : String} {spec : JsonValue} {m : Peekable} {path : String}

theorem get_write_self (value : Option JsonValue) : (write spec path value).get path = value := by
  rw [get_write, if_pos rfl]

theorem get_write_of_ne {other : String} (h : path ≠ other) (value : Option JsonValue) :
    (write spec path value).get other = spec.get other := by
  rw [get_write, if_neg h]

/-- `value ?? other` is one or the other, whatever the other is. -/
theorem orElse_cases (value : Option JsonValue) :
    (∀ other, orElse value other = other) ∨
      ∀ other other', orElse value other = orElse value other' := by
  unfold orElse
  split
  · exact .inl fun _ => rfl
  · exact .inl fun _ => rfl
  · exact .inr fun _ _ => rfl

/-- What a strategy is, after another field was written. -/
theorem strategy_write (h : path ≠ "strategy") (value : Option JsonValue) {s : String}
    (hs : spec.get "strategy" = some (.str s)) :
    (write spec path value).get "strategy" = some (.str s) :=
  (get_write_of_ne h value).trans hs

/-! ### GCRA -/

theorem effective_gcra_limit (hs : spec.get "strategy" = some (.str "gcra"))
    (hbuild : buildStrategy name spec = .ok m) : Effective name spec "limit" := by
  obtain ⟨l, p, b, hl, hp, hb, hlimit, hwindow, hburst, hle, rfl⟩ :=
    (buildStrategy_gcra hs).mp hbuild
  have hl' : 0 < 2 * l := by linarith
  have hT : p / (2 * l) < p / l := div_lt_div_of_pos_left hp hl (by linarith)
  have hwindow' : periodOrMs name ((write spec "limit" (some (.num (2 * l)))).get "period")
      (orElse ((write spec "limit" (some (.num (2 * l)))).get "periodMs")
        ((write spec "limit" (some (.num (2 * l)))).get "windowMs")) = .ok (.num p) := by
    rw [get_write_of_ne (by decide), get_write_of_ne (by decide), get_write_of_ne (by decide)]
    exact hwindow
  rcases orElse_cases (spec.get "burst") with hdefault | hgiven
  · -- The burst is the limit.
    rw [hdefault, hlimit] at hburst
    obtain rfl : l = b := by simpa using hburst
    refine ⟨_, _, .gcra ⟨2 * l, p, 2 * l, hl', hp, by linarith⟩, hbuild,
      (buildStrategy_gcra (strategy_write (by decide) _ hs)).mpr ⟨2 * l, p, 2 * l, hl', hp,
        by linarith, get_write_self _, hwindow', ?_, hT.le.trans hle, rfl⟩,
      not_alike_gcra_burst ?_⟩
    · rw [get_write_of_ne (by decide), hdefault]
      exact get_write_self _
    · show l ≠ 2 * l
      linarith
  · refine ⟨_, _, .gcra ⟨2 * l, p, b, hl', hp, hb⟩, hbuild,
      (buildStrategy_gcra (strategy_write (by decide) _ hs)).mpr ⟨2 * l, p, b, hl', hp, hb,
        get_write_self _, hwindow', ?_, hT.le.trans hle, rfl⟩, not_alike_gcra_T hT⟩
    rw [get_write_of_ne (by decide), hgiven _ (spec.get "limit")]
    exact hburst

/-- Half the window makes for half the emission interval. -/
theorem effective_gcra_window (hs : spec.get "strategy" = some (.str "gcra"))
    (hbuild : buildStrategy name spec = .ok m)
    (hpath : path = "period" ∨ path = "periodMs" ∧ spec.get "period" = none ∨
      path = "windowMs" ∧ spec.get "period" = none ∧ spec.get "periodMs" = none) :
    Effective name spec path := by
  obtain ⟨l, p, b, hl, hp, hb, hlimit, -, hburst, hle, rfl⟩ := (buildStrategy_gcra hs).mp hbuild
  have hhalf : 0 < p / 2 := by linarith
  have hT : p / 2 / l < p / l := div_lt_div_of_pos_right (by linarith) hl
  have hne : path ≠ "strategy" ∧ path ≠ "limit" ∧ path ≠ "burst" := by
    rcases hpath with rfl | ⟨rfl, -⟩ | ⟨rfl, -⟩ <;> decide
  refine ⟨some (.num (p / 2)), _, .gcra ⟨l, p / 2, b, hl, hhalf, hb⟩, hbuild,
    (buildStrategy_gcra (strategy_write hne.1 _ hs)).mpr
      ⟨l, p / 2, b, hl, hhalf, hb, ?_, periodOrMs_num hhalf ?_, ?_, hT.le.trans hle, rfl⟩,
    not_alike_gcra_T hT⟩
  · rw [get_write_of_ne hne.2.1]
    exact hlimit
  · rcases hpath with rfl | ⟨rfl, hperiod⟩ | ⟨rfl, hperiod, hperiodMs⟩
    · exact .inl (get_write_self _)
    · refine .inr ⟨(get_write_of_ne (by decide) _).trans hperiod, ?_⟩
      rw [get_write_self]
      rfl
    · refine .inr ⟨(get_write_of_ne (by decide) _).trans hperiod, ?_⟩
      rw [get_write_of_ne (by decide), hperiodMs, get_write_self]
      rfl
  · rw [get_write_of_ne hne.2.2, get_write_of_ne hne.2.1]
    exact hburst

theorem effective_gcra_burst (hs : spec.get "strategy" = some (.str "gcra"))
    (hbuild : buildStrategy name spec = .ok m) : Effective name spec "burst" := by
  obtain ⟨l, p, b, hl, hp, hb, hlimit, hwindow, -, hle, rfl⟩ := (buildStrategy_gcra hs).mp hbuild
  refine ⟨some (.num (b + 1)), _, .gcra ⟨l, p, b + 1, hl, hp, by linarith⟩, hbuild,
    (buildStrategy_gcra (strategy_write (by decide) _ hs)).mpr
      ⟨l, p, b + 1, hl, hp, by linarith, ?_, ?_, ?_, hle, rfl⟩, not_alike_gcra_burst ?_⟩
  · rw [get_write_of_ne (by decide)]
    exact hlimit
  · rw [get_write_of_ne (by decide), get_write_of_ne (by decide), get_write_of_ne (by decide)]
    exact hwindow
  · rw [get_write_self]
    rfl
  · show b ≠ b + 1
    linarith

/-! ### The token bucket -/

/-- A bucket that fills no slower is kept no longer. -/
theorem ttlMs_le {cfg cfg' : TokenBucket.Config}
    (h : cfg'.capacity / cfg'.refillPerMs ≤ cfg.capacity / cfg.refillPerMs) :
    cfg'.ttlMs ≤ cfg.ttlMs := by
  have hceil := Int.ceil_mono h
  exact max_le_max le_rfl (by exact_mod_cast hceil)

theorem effective_capacity (hs : spec.get "strategy" = some (.str "tokenBucket"))
    (hbuild : buildStrategy name spec = .ok m) : Effective name spec "capacity" := by
  obtain ⟨c, r, hc, hr, hcapacity, hrefill, hle, rfl⟩ := (buildStrategy_tokenBucket hs).mp hbuild
  have hhalf : 0 < c / 2 := by linarith
  refine ⟨some (.num (c / 2)), _, .tokenBucket ⟨c / 2, r, hhalf, hr⟩, hbuild,
    (buildStrategy_tokenBucket (strategy_write (by decide) _ hs)).mpr
      ⟨c / 2, r, hhalf, hr, get_write_self _, ?_, ?_, rfl⟩, not_alike_tokenBucket_capacity ?_⟩
  · rw [get_write_of_ne (by decide)]
    exact hrefill
  · refine (ttlMs_le ?_).trans hle
    have hpos := (⟨c, r, hc, hr⟩ : TokenBucket.Config).refillPerMs_pos
    exact div_le_div_of_nonneg_right (by show c / 2 ≤ c; linarith) hpos.le
  · show c ≠ c / 2
    linarith

theorem effective_refill (hs : spec.get "strategy" = some (.str "tokenBucket"))
    (hbuild : buildStrategy name spec = .ok m) : Effective name spec "refillPerSec" := by
  obtain ⟨c, r, hc, hr, hcapacity, hrefill, hle, rfl⟩ := (buildStrategy_tokenBucket hs).mp hbuild
  have htwice : 0 < 2 * r := by linarith
  refine ⟨some (.num (2 * r)), _, .tokenBucket ⟨c, 2 * r, hc, htwice⟩, hbuild,
    (buildStrategy_tokenBucket (strategy_write (by decide) _ hs)).mpr
      ⟨c, 2 * r, hc, htwice, ?_, get_write_self _, ?_, rfl⟩, not_alike_tokenBucket_refill rfl rfl⟩
  · rw [get_write_of_ne (by decide)]
    exact hcapacity
  · refine (ttlMs_le ?_).trans hle
    have hpos := (⟨c, r, hc, hr⟩ : TokenBucket.Config).refillPerMs_pos
    refine div_le_div_of_nonneg_left hc.le hpos ?_
    show r / 1000 ≤ 2 * r / 1000
    linarith

/-! ### A limit and a window -/

/-- What a strategy that goes by a limit and a window reads, whatever else it is made of. -/
theorem effective_windowed {l w : ℚ} {f : (l w : ℚ) → 0 < l → 0 < w → Peekable} (hl : 0 < l)
    (hw : 0 < w) (hself : Windowed name spec l w)
    (hbuild : buildStrategy name spec = .ok (f l w hl hw))
    (hbuilds : ∀ path ∈ ["limit", "period", "windowMs"], ∀ value l' w' hl' hw',
      Windowed name (write spec path value) l' w' →
        buildStrategy name (write spec path value) = .ok (f l' w' hl' hw'))
    (hlimit : ∀ hl', ¬ Alike (f l w hl hw) (f (l + 1) w hl' hw))
    (hwindow : ∀ hw', ¬ Alike (f l w hl hw) (f l (w + 1) hl hw'))
    (hpath : path = "limit" ∨ path = "period" ∨ path = "windowMs" ∧ spec.get "period" = none) :
    Effective name spec path := by
  have hl' : 0 < l + 1 := by linarith
  have hw' : 0 < w + 1 := by linarith
  rcases hpath with rfl | rfl | ⟨rfl, hperiod⟩
  · refine ⟨some (.num (l + 1)), _, _, hbuild,
      hbuilds "limit" (by simp) _ _ _ hl' hw ⟨get_write_self _, ?_⟩, hlimit hl'⟩
    rw [get_write_of_ne (by decide), get_write_of_ne (by decide)]
    exact hself.2
  · exact ⟨some (.num (w + 1)), _, _, hbuild,
      hbuilds "period" (by simp) _ _ _ hl hw' ⟨(get_write_of_ne (by decide) _).trans hself.1,
        periodOrMs_num hw' (.inl (get_write_self _))⟩, hwindow hw'⟩
  · exact ⟨some (.num (w + 1)), _, _, hbuild,
      hbuilds "windowMs" (by simp) _ _ _ hl hw' ⟨(get_write_of_ne (by decide) _).trans hself.1,
        periodOrMs_num hw' (.inr ⟨(get_write_of_ne (by decide) _).trans hperiod,
          get_write_self _⟩)⟩, hwindow hw'⟩

theorem effective_fixedWindow (hs : spec.get "strategy" = some (.str "fixedWindow"))
    (hbuild : buildStrategy name spec = .ok m)
    (hpath : path = "limit" ∨ path = "period" ∨ path = "windowMs" ∧ spec.get "period" = none) :
    Effective name spec path := by
  obtain ⟨l, w, hl, hw, hself, rfl⟩ := (buildStrategy_fixedWindow hs).mp hbuild
  refine effective_windowed (f := fun l w hl hw => .fixedWindow ⟨l, w, hl, hw⟩) hl hw hself hbuild
    ?_ (fun _ => not_alike_fixedWindow_limit (by show l ≠ l + 1; linarith))
    (fun _ => not_alike_fixedWindow_window rfl) hpath
  intro path hpath value l' w' hl' hw' h
  have hne : path ≠ "strategy" := by
    rintro rfl
    simp at hpath
  exact (buildStrategy_fixedWindow (strategy_write hne value hs)).mpr ⟨l', w', hl', hw', h, rfl⟩

theorem effective_slidingWindowLog (hs : spec.get "strategy" = some (.str "slidingWindowLog"))
    (hbuild : buildStrategy name spec = .ok m)
    (hpath : path = "limit" ∨ path = "period" ∨ path = "windowMs" ∧ spec.get "period" = none) :
    Effective name spec path := by
  obtain ⟨l, w, hl, hw, hself, rfl⟩ := (buildStrategy_slidingWindowLog hs).mp hbuild
  refine effective_windowed (f := fun l w hl hw => .slidingWindowLog ⟨l, w, hl, hw⟩) hl hw hself
    hbuild ?_ (fun _ => not_alike_log_limit (by show l ≠ l + 1; linarith))
    (fun _ => not_alike_log_window rfl) hpath
  intro path hpath value l' w' hl' hw' h
  have hne : path ≠ "strategy" := by
    rintro rfl
    simp at hpath
  exact (buildStrategy_slidingWindowLog (strategy_write hne value hs)).mpr
    ⟨l', w', hl', hw', h, rfl⟩

theorem effective_slidingWindow (hs : spec.get "strategy" = some (.str "slidingWindow"))
    (hbuild : buildStrategy name spec = .ok m)
    (hpath : path = "limit" ∨ path = "period" ∨ path = "windowMs" ∧ spec.get "period" = none) :
    Effective name spec path := by
  obtain ⟨⟨l, w, S, hl, hw, hS⟩, hself, hbuckets, hle, rfl⟩ :=
    (buildStrategy_slidingWindow hs).mp hbuild
  refine effective_windowed (f := fun l w hl hw => .slidingWindow ⟨l, w, S, hl, hw, hS⟩) hl hw hself
    hbuild ?_ (fun _ => not_alike_sliding_limit (by show l ≠ l + 1; linarith))
    (fun _ => not_alike_sliding_window rfl rfl) hpath
  intro path hpath value l' w' hl' hw' h
  have hne : path ≠ "strategy" ∧ path ≠ "buckets" := by
    constructor <;> (rintro rfl; simp at hpath)
  refine (buildStrategy_slidingWindow (strategy_write hne.1 value hs)).mpr
    ⟨⟨l', w', S, hl', hw', hS⟩, h, ?_, hle, rfl⟩
  rw [get_write_of_ne hne.2]
  exact hbuckets

/-- Other buckets, of which there may be as many, make for another sliding window. -/
theorem exists_other_buckets (cfg : SlidingWindow.Config) :
    ∃ cfg' : SlidingWindow.Config, cfg'.limit = cfg.limit ∧ cfg'.windowMs = cfg.windowMs ∧
      cfg'.buckets ≤ 100000 ∧ ¬ Alike (.slidingWindow cfg) (.slidingWindow cfg') := by
  by_cases hS : cfg.buckets < 100000
  · exact ⟨{ cfg with buckets := cfg.buckets + 1, one_le_buckets := by omega }, rfl, rfl, hS,
      not_alike_sliding_buckets rfl rfl (Nat.lt_succ_self _)⟩
  · have hone : 1 < cfg.buckets := by omega
    refine ⟨{ cfg with buckets := 1, one_le_buckets := le_rfl }, rfl, rfl, by norm_num, fun h => ?_⟩
    exact not_alike_sliding_buckets (by rfl) (by rfl) hone h.symm

theorem effective_buckets (hs : spec.get "strategy" = some (.str "slidingWindow"))
    (hbuild : buildStrategy name spec = .ok m) : Effective name spec "buckets" := by
  obtain ⟨cfg, hself, -, -, rfl⟩ := (buildStrategy_slidingWindow hs).mp hbuild
  obtain ⟨cfg', hlimit, hwindow, hle, halike⟩ := exists_other_buckets cfg
  refine ⟨some (.num cfg'.buckets), _, .slidingWindow cfg', hbuild,
    (buildStrategy_slidingWindow (strategy_write (by decide) _ hs)).mpr ⟨cfg', ⟨?_, ?_⟩, ?_, hle,
      rfl⟩, halike⟩
  · rw [get_write_of_ne (by decide), hlimit]
    exact hself.1
  · rw [get_write_of_ne (by decide), get_write_of_ne (by decide), hwindow]
    exact hself.2
  · rw [get_write_self]
    rfl

/-! ### Quotas -/

/-- What a rolling quota is built from. -/
theorem buildStrategy_rolling (hs : spec.get "strategy" = some (.str "quota"))
    (hcadence : spec.get "resetCadence" = some (.str "rolling")) :
    buildStrategy name spec = .ok m ↔ ∃ cfg : SlidingWindow.Config,
      spec.get "limit" = some (.num cfg.limit) ∧
      quotaPeriod (spec.get "period") (spec.get "periodMs") = .ok (some (.num cfg.windowMs)) ∧
      orElse (spec.get "buckets") (some (.num 10)) = some (.num cfg.buckets) ∧
        cfg.buckets ≤ 100000 ∧ m = .rollingQuota cfg := by
  rw [buildStrategy_quota hs, hcadence]
  constructor
  · rintro ⟨cadence, period, limit, hc, hperiod, hlimit, -, hquota⟩
    obtain rfl := Option.some.inj hc
    obtain ⟨cfg, hcfg, rfl⟩ := quota_rolling.mp hquota
    obtain ⟨hl, hp, hbuckets, hle⟩ := slidingWindowConfig_eq_ok.mp hcfg
    exact ⟨cfg, hlimit.trans hl, hperiod.trans (congrArg _ hp), hbuckets, hle, rfl⟩
  · rintro ⟨cfg, hlimit, hperiod, hbuckets, hle, rfl⟩
    exact ⟨_, _, _, rfl, hperiod, hlimit, by simp, quota_rolling.mpr
      ⟨cfg, slidingWindowConfig_eq_ok.mpr ⟨rfl, rfl, hbuckets, hle⟩, rfl⟩⟩

/-- The options of a spec, for any cadence but a rolling one. -/
def Options (spec : JsonValue) (a o w : ℤ) : Prop :=
  WindowOptions (spec.get "anchor") (spec.get "offsetMinutes") (spec.get "weekStartsOn") a o w

/-- What a quota of fixed periods is built from. -/
theorem buildStrategy_fixed (hs : spec.get "strategy" = some (.str "quota"))
    (hcadence : spec.get "resetCadence" = some (.str "fixed")) :
    buildStrategy name spec = .ok m ↔ ∃ (l p : ℚ) (hl : 0 < l) (hp : 0 < p) (a o w : ℤ),
      spec.get "limit" = some (.num l) ∧
      quotaPeriod (spec.get "period") (spec.get "periodMs") = .ok (some (.num p)) ∧
      Options spec a o w ∧ m = .quota ⟨l, .fixed p a hp, hl⟩ := by
  rw [buildStrategy_quota hs, hcadence]
  constructor
  · rintro ⟨cadence, period, limit, hc, hperiod, hlimit, -, hquota⟩
    obtain rfl := Option.some.inj hc
    obtain ⟨l, hl, a, o, w, hl', hoptions, h⟩ := (quota_not_rolling rfl).mp hquota
    rw [if_pos (isStr_self "fixed")] at h
    obtain ⟨p, hp, rfl, rfl⟩ := h
    exact ⟨l, p, hl, hp, a, o, w, hlimit.trans hl', hperiod, hoptions, rfl⟩
  · rintro ⟨l, p, hl, hp, a, o, w, hlimit, hperiod, hoptions, rfl⟩
    refine ⟨_, _, _, rfl, hperiod, hlimit, by simp, (quota_not_rolling rfl).mpr
      ⟨l, hl, a, o, w, rfl, hoptions, ?_⟩⟩
    rw [if_pos (isStr_self "fixed")]
    exact ⟨p, hp, rfl, rfl⟩

/-- What a quota of a calendar is built from. -/
theorem buildStrategy_calendar (hs : spec.get "strategy" = some (.str "quota"))
    {cadence : JsonValue} {c : Calendar.CalendarCadence}
    (hcadence : spec.get "resetCadence" = some cadence) (hc : calendarCadence cadence = some c) :
    buildStrategy name spec = .ok m ↔ ∃ (l : ℚ) (hl : 0 < l) (a o w : ℤ),
      spec.get "limit" = some (.num l) ∧
      (∃ period, quotaPeriod (spec.get "period") (spec.get "periodMs") = .ok period) ∧
      Options spec a o w ∧ m = .quota ⟨l, .calendar c o w, hl⟩ := by
  have hkind : isStr (some cadence) "rolling" = false ∧ isStr (some cadence) "fixed" = false := by
    unfold calendarCadence at hc
    split at hc
    · decide
    · decide
    · decide
    · cases hc
  rw [buildStrategy_quota hs, hcadence]
  constructor
  · rintro ⟨cadence', period, limit, hc', hperiod, hlimit, -, hquota⟩
    obtain rfl := Option.some.inj hc'
    obtain ⟨l, hl, a, o, w, hl', hoptions, h⟩ := (quota_not_rolling hkind.1).mp hquota
    rw [if_neg (by rw [hkind.2]; exact Bool.false_ne_true)] at h
    obtain ⟨c', hc', rfl⟩ := h
    obtain rfl := Option.some.inj (hc.symm.trans hc')
    exact ⟨l, hl, a, o, w, hlimit.trans hl', ⟨period, hperiod⟩, hoptions, rfl⟩
  · rintro ⟨l, hl, a, o, w, hlimit, ⟨period, hperiod⟩, hoptions, rfl⟩
    refine ⟨_, _, _, rfl, hperiod, hlimit, by simp, (quota_not_rolling hkind.1).mpr
      ⟨l, hl, a, o, w, rfl, hoptions, ?_⟩⟩
    rw [if_neg (by rw [hkind.2]; exact Bool.false_ne_true)]
    exact ⟨c, hc, rfl⟩

/-- A quota that is built is of one of these cadences. -/
theorem cadence_cases (hs : spec.get "strategy" = some (.str "quota"))
    (hbuild : buildStrategy name spec = .ok m) :
    spec.get "resetCadence" = some (.str "rolling") ∨
    spec.get "resetCadence" = some (.str "fixed") ∨
    ∃ cadence c, spec.get "resetCadence" = some cadence ∧ calendarCadence cadence = some c := by
  obtain ⟨cadence, period, limit, hcadence, -, -, -, hquota⟩ := (buildStrategy_quota hs).mp hbuild
  by_cases hrolling : isStr (some cadence) "rolling" = true
  · exact .inl (hcadence.trans (isStr_eq_true.mp hrolling))
  · obtain ⟨l, hl, a, o, w, -, -, h⟩ :=
      (quota_not_rolling (Bool.eq_false_iff.mpr hrolling)).mp hquota
    split at h
    · rename_i hfixed
      exact .inr (.inl (hcadence.trans (isStr_eq_true.mp hfixed)))
    · obtain ⟨c, hc, -⟩ := h
      exact .inr (.inr ⟨cadence, c, hcadence, hc⟩)

/-- The period, after another field was written. -/
theorem quotaPeriod_write (h : path ≠ "period") (h' : path ≠ "periodMs")
    (value : Option JsonValue) :
    quotaPeriod ((write spec path value).get "period") ((write spec path value).get "periodMs")
      = quotaPeriod (spec.get "period") (spec.get "periodMs") := by
  rw [get_write_of_ne h, get_write_of_ne h']

/-- Another period. -/
theorem quotaPeriod_written {p : ℚ} (hp : 0 < p)
    (hpath : path = "period" ∨ path = "periodMs" ∧ spec.get "period" = none) :
    quotaPeriod ((write spec path (some (.num p))).get "period")
      ((write spec path (some (.num p))).get "periodMs") = .ok (some (.num p)) := by
  refine quotaPeriod_num hp ?_
  rcases hpath with rfl | ⟨rfl, hperiod⟩
  · exact .inl (get_write_self _)
  · exact .inr ⟨(get_write_of_ne (by decide) _).trans hperiod, get_write_self _⟩

/-- The options, after another field was written. -/
theorem options_write {a o w : ℤ} (h : Options spec a o w)
    (hpath : path ∉ ["anchor", "offsetMinutes", "weekStartsOn"]) (value : Option JsonValue) :
    Options (write spec path value) a o w := by
  simp only [List.mem_cons, List.not_mem_nil, or_false, not_or] at hpath
  unfold Options
  rw [get_write_of_ne hpath.1, get_write_of_ne hpath.2.1, get_write_of_ne hpath.2.2]
  exact h

theorem integerOr_num (field : String) (n default : ℤ) :
    integerOr field (some (.num n)) default = .ok n := by
  unfold integerOr
  exact requireInteger_eq_ok.mpr rfl

theorem effective_rolling (hs : spec.get "strategy" = some (.str "quota"))
    (hcadence : spec.get "resetCadence" = some (.str "rolling"))
    (hbuild : buildStrategy name spec = .ok m)
    (hpath : path = "limit" ∨ path = "buckets" ∨ path = "period" ∨
      path = "periodMs" ∧ spec.get "period" = none) : Effective name spec path := by
  obtain ⟨cfg, hlimit, hperiod, hbuckets, hle, rfl⟩ := (buildStrategy_rolling hs hcadence).mp hbuild
  have hl := cfg.limit_pos
  have hw := cfg.windowMs_pos
  rcases hpath with rfl | rfl | hpath
  · refine ⟨some (.num (cfg.limit + 1)), _, _, hbuild, (buildStrategy_rolling
      (strategy_write (by decide) _ hs) ((get_write_of_ne (by decide) _).trans hcadence)).mpr
        ⟨{ cfg with limit := cfg.limit + 1, limit_pos := by linarith }, get_write_self _,
          (quotaPeriod_write (by decide) (by decide) _).trans hperiod, ?_, hle, rfl⟩,
      fun h => not_alike_sliding_limit (by show cfg.limit ≠ cfg.limit + 1; linarith)
        (alike_rolling_iff.mp h)⟩
    rw [get_write_of_ne (by decide)]
    exact hbuckets
  · obtain ⟨cfg', hlimit', hwindow', hle', halike⟩ := exists_other_buckets cfg
    refine ⟨some (.num cfg'.buckets), _, _, hbuild, (buildStrategy_rolling
      (strategy_write (by decide) _ hs) ((get_write_of_ne (by decide) _).trans hcadence)).mpr
        ⟨cfg', ?_, ?_, ?_, hle', rfl⟩, fun h => halike (alike_rolling_iff.mp h)⟩
    · rw [get_write_of_ne (by decide), hlimit']
      exact hlimit
    · rw [quotaPeriod_write (by decide) (by decide), hwindow']
      exact hperiod
    · rw [get_write_self]
      rfl
  · have hne : path ≠ "strategy" ∧ path ≠ "resetCadence" ∧ path ≠ "limit" ∧ path ≠ "buckets" := by
      rcases hpath with rfl | ⟨rfl, -⟩ <;> decide
    have hw' : 0 < cfg.windowMs + 1 := by linarith
    refine ⟨some (.num (cfg.windowMs + 1)), _, _, hbuild, (buildStrategy_rolling
      (strategy_write hne.1 _ hs) ((get_write_of_ne hne.2.1 _).trans hcadence)).mpr
        ⟨{ cfg with windowMs := cfg.windowMs + 1, windowMs_pos := hw' },
          (get_write_of_ne hne.2.2.1 _).trans hlimit, quotaPeriod_written hw' hpath, ?_, hle, rfl⟩,
      fun h => not_alike_sliding_window (by rfl) (by rfl) (alike_rolling_iff.mp h)⟩
    rw [get_write_of_ne hne.2.2.2]
    exact hbuckets

theorem effective_fixed (hs : spec.get "strategy" = some (.str "quota"))
    (hcadence : spec.get "resetCadence" = some (.str "fixed"))
    (hbuild : buildStrategy name spec = .ok m)
    (hpath : path = "limit" ∨ path = "period" ∨ path = "periodMs" ∧ spec.get "period" = none) :
    Effective name spec path := by
  obtain ⟨l, p, hl, hp, a, o, w, hlimit, hperiod, hoptions, rfl⟩ :=
    (buildStrategy_fixed hs hcadence).mp hbuild
  have hl' : 0 < l + 1 := by linarith
  have hp' : 0 < p + 1 := by linarith
  rcases hpath with rfl | hpath
  · exact ⟨some (.num (l + 1)), _, _, hbuild, (buildStrategy_fixed
      (strategy_write (by decide) _ hs) ((get_write_of_ne (by decide) _).trans hcadence)).mpr
        ⟨l + 1, p, hl', hp, a, o, w, get_write_self _,
          (quotaPeriod_write (by decide) (by decide) _).trans hperiod,
          options_write hoptions (by decide) _, rfl⟩,
      not_alike_quota_limit (by show l ≠ l + 1; linarith)⟩
  · have hne : path ≠ "strategy" ∧ path ≠ "resetCadence" ∧ path ≠ "limit" ∧
        path ∉ ["anchor", "offsetMinutes", "weekStartsOn"] := by
      rcases hpath with rfl | ⟨rfl, -⟩ <;> decide
    exact ⟨some (.num (p + 1)), _, _, hbuild, (buildStrategy_fixed
      (strategy_write hne.1 _ hs) ((get_write_of_ne hne.2.1 _).trans hcadence)).mpr
        ⟨l, p + 1, hl, hp', a, o, w, (get_write_of_ne hne.2.2.1 _).trans hlimit,
          quotaPeriod_written hp' hpath, options_write hoptions hne.2.2.2 _, rfl⟩,
      not_alike_fixed_period hp hp' hl hl⟩

/-- **An anchor is read** unless the period divides a millisecond. -/
theorem effective_anchor_iff (hs : spec.get "strategy" = some (.str "quota"))
    (hcadence : spec.get "resetCadence" = some (.str "fixed"))
    (hbuild : buildStrategy name spec = .ok m) : Effective name spec "anchor" ↔
      ∀ p : ℚ, quotaPeriod (spec.get "period") (spec.get "periodMs") = .ok (some (.num p)) →
        ∀ k : ℤ, k * p ≠ 1 := by
  obtain ⟨l, p, hl, hp, a, o, w, hlimit, hperiod, hoptions, rfl⟩ :=
    (buildStrategy_fixed hs hcadence).mp hbuild
  have hperiods : ∀ value, quotaPeriod ((write spec "anchor" value).get "period")
      ((write spec "anchor" value).get "periodMs") = .ok (some (.num p)) :=
    fun value => (quotaPeriod_write (by decide) (by decide) value).trans hperiod
  constructor
  · rintro ⟨value, m, m', hm, hm', halike⟩ p' hp' k hk
    obtain rfl : p = p' := by simpa [hperiod] using hp'
    obtain rfl := Except.ok.inj (hbuild.symm.trans hm)
    obtain ⟨l', p', hl', hp', a', o', w', hlimit', hperiod', hoptions', rfl⟩ :=
      (buildStrategy_fixed (strategy_write (by decide) _ hs)
        ((get_write_of_ne (by decide) _).trans hcadence)).mp hm'
    obtain rfl : p = p' := by simpa [hperiods] using hperiod'
    rw [get_write_of_ne (by decide), hlimit] at hlimit'
    obtain rfl : l = l' := by simpa using hlimit'
    exact halike (alike_anchor hp hl hk)
  · intro h
    refine ⟨some (.num (a + 1 : ℤ)), _, _, hbuild, (buildStrategy_fixed
      (strategy_write (by decide) _ hs) ((get_write_of_ne (by decide) _).trans hcadence)).mpr
        ⟨l, p, hl, hp, a + 1, o, w, (get_write_of_ne (by decide) _).trans hlimit, hperiods _, ?_,
          rfl⟩, not_alike_anchor hp hl (h p hperiod)⟩
    unfold Options
    rw [get_write_self, get_write_of_ne (by decide), get_write_of_ne (by decide)]
    exact { hoptions with anchor := integerOr_num _ _ _ }

section Calendars

variable {cadence : JsonValue} {c : Calendar.CalendarCadence}

theorem effective_calendar (hs : spec.get "strategy" = some (.str "quota"))
    (hcadence : spec.get "resetCadence" = some cadence) (hc : calendarCadence cadence = some c)
    (hbuild : buildStrategy name spec = .ok m)
    (hpath : path = "limit" ∨ path = "offsetMinutes" ∨ path = "weekStartsOn" ∧ c = .week) :
    Effective name spec path := by
  obtain ⟨l, hl, a, o, w, hlimit, ⟨period, hperiod⟩, hoptions, rfl⟩ :=
    (buildStrategy_calendar hs hcadence hc).mp hbuild
  rcases hpath with rfl | rfl | ⟨rfl, rfl⟩
  · have hl' : 0 < l + 1 := by linarith
    exact ⟨some (.num (l + 1)), _, _, hbuild, (buildStrategy_calendar
      (strategy_write (by decide) _ hs) ((get_write_of_ne (by decide) _).trans hcadence) hc).mpr
        ⟨l + 1, hl', a, o, w, get_write_self _,
          ⟨period, (quotaPeriod_write (by decide) (by decide) _).trans hperiod⟩,
          options_write hoptions (by decide) _, rfl⟩,
      not_alike_quota_limit (by show l ≠ l + 1; linarith)⟩
  · obtain ⟨o', ho', hrange⟩ : ∃ o', (o' = o + 1 ∨ o' = o - 1) ∧ -840 ≤ o' ∧ o' ≤ 840 := by
      have hrange := hoptions.offset_mem
      by_cases hlt : o < 840
      · exact ⟨o + 1, .inl rfl, by omega⟩
      · exact ⟨o - 1, .inr rfl, by omega⟩
    refine ⟨some (.num o'), _, _, hbuild, (buildStrategy_calendar
      (strategy_write (by decide) _ hs) ((get_write_of_ne (by decide) _).trans hcadence) hc).mpr
        ⟨l, hl, a, o', w, (get_write_of_ne (by decide) _).trans hlimit,
          ⟨period, (quotaPeriod_write (by decide) (by decide) _).trans hperiod⟩, ?_, rfl⟩,
      not_alike_offset hl ho'⟩
    unfold Options
    rw [get_write_self, get_write_of_ne (by decide), get_write_of_ne (by decide)]
    exact { hoptions with offsetMinutes := integerOr_num _ _ _, offset_mem := hrange }
  · obtain ⟨w', hne, hweek⟩ : ∃ w', w ≠ w' ∧ 0 ≤ w' ∧ w' ≤ 6 := by
      by_cases hzero : w = 0
      · exact ⟨1, by omega⟩
      · exact ⟨0, by omega⟩
    refine ⟨some (.num w'), _, _, hbuild, (buildStrategy_calendar
      (strategy_write (by decide) _ hs) ((get_write_of_ne (by decide) _).trans hcadence) hc).mpr
        ⟨l, hl, a, o, w', (get_write_of_ne (by decide) _).trans hlimit,
          ⟨period, (quotaPeriod_write (by decide) (by decide) _).trans hperiod⟩, ?_, rfl⟩,
      not_alike_week hl hoptions.week_mem hweek hne⟩
    unfold Options
    rw [get_write_self, get_write_of_ne (by decide), get_write_of_ne (by decide)]
    exact { hoptions with weekStartsOn := integerOr_num _ _ _, week_mem := hweek }

end Calendars

/-! ### What is not looked at -/

/-- No builder looks at the prefix. -/
theorem not_effective_prefix : ¬ Effective name spec "prefix" := by
  rintro ⟨value, m, m', hm, hm', halike⟩
  have hsame : buildStrategy name (write spec "prefix" value) = buildStrategy name spec := by
    unfold buildStrategy
    simp only [get_write, String.reduceEq, if_false]
  obtain rfl := Except.ok.inj (hm.symm.trans (hsame.symm.trans hm'))
  exact halike fun _ => rfl

theorem not_effective_rolling (hs : spec.get "strategy" = some (.str "quota"))
    (hcadence : spec.get "resetCadence" = some (.str "rolling"))
    (hpath : path ∈ ["anchor", "offsetMinutes", "weekStartsOn"]) : ¬ Effective name spec path := by
  rintro ⟨value, m, m', hm, hm', halike⟩
  have hne : path ≠ "strategy" ∧ path ≠ "resetCadence" ∧ path ≠ "limit" ∧ path ≠ "period" ∧
      path ≠ "periodMs" ∧ path ≠ "buckets" := by
    simp only [List.mem_cons, List.not_mem_nil, or_false] at hpath
    rcases hpath with rfl | rfl | rfl <;> decide
  obtain ⟨hstrategy, hcad, hlim, hper, hperMs, hbuck⟩ := hne
  obtain ⟨⟨l, w, S, hl, hw, hS⟩, hlimit, hperiod, hbuckets, -, rfl⟩ :=
    (buildStrategy_rolling hs hcadence).mp hm
  obtain ⟨⟨l', w', S', hl', hw', hS'⟩, hlimit', hperiod', hbuckets', -, rfl⟩ :=
    (buildStrategy_rolling (strategy_write hstrategy _ hs)
      ((get_write_of_ne hcad _).trans hcadence)).mp hm'
  rw [get_write_of_ne hlim, hlimit] at hlimit'
  rw [quotaPeriod_write hper hperMs, hperiod] at hperiod'
  rw [get_write_of_ne hbuck, hbuckets] at hbuckets'
  obtain rfl : l = l' := by simpa using hlimit'
  obtain rfl : w = w' := by simpa using hperiod'
  obtain rfl : S = S' := by simpa using hbuckets'
  exact halike fun _ => rfl

theorem not_effective_fixed (hs : spec.get "strategy" = some (.str "quota"))
    (hcadence : spec.get "resetCadence" = some (.str "fixed"))
    (hpath : path ∈ ["offsetMinutes", "weekStartsOn", "buckets"]) : ¬ Effective name spec path := by
  rintro ⟨value, m, m', hm, hm', halike⟩
  have hne : path ≠ "strategy" ∧ path ≠ "resetCadence" ∧ path ≠ "limit" ∧ path ≠ "period" ∧
      path ≠ "periodMs" ∧ path ≠ "anchor" := by
    simp only [List.mem_cons, List.not_mem_nil, or_false] at hpath
    rcases hpath with rfl | rfl | rfl <;> decide
  obtain ⟨hstrategy, hcad, hlim, hper, hperMs, hanch⟩ := hne
  obtain ⟨l, p, hl, hp, a, o, w, hlimit, hperiod, hoptions, rfl⟩ :=
    (buildStrategy_fixed hs hcadence).mp hm
  obtain ⟨l', p', hl', hp', a', o', w', hlimit', hperiod', hoptions', rfl⟩ :=
    (buildStrategy_fixed (strategy_write hstrategy _ hs)
      ((get_write_of_ne hcad _).trans hcadence)).mp hm'
  have hanchor := hoptions'.anchor
  rw [get_write_of_ne hanch, hoptions.anchor] at hanchor
  rw [get_write_of_ne hlim, hlimit] at hlimit'
  rw [quotaPeriod_write hper hperMs, hperiod] at hperiod'
  obtain rfl : l = l' := by simpa using hlimit'
  obtain rfl : p = p' := by simpa using hperiod'
  obtain rfl := Except.ok.inj hanchor
  exact halike fun _ => rfl

theorem not_effective_calendar {cadence : JsonValue} {c : Calendar.CalendarCadence}
    (hs : spec.get "strategy" = some (.str "quota"))
    (hcadence : spec.get "resetCadence" = some cadence) (hc : calendarCadence cadence = some c)
    (hpath : path ∈ ["period", "periodMs", "anchor", "buckets"] ∨
      path = "weekStartsOn" ∧ c ≠ .week) : ¬ Effective name spec path := by
  rintro ⟨value, m, m', hm, hm', halike⟩
  have hne : path ≠ "strategy" ∧ path ≠ "resetCadence" ∧ path ≠ "limit" ∧
      path ≠ "offsetMinutes" := by
    simp only [List.mem_cons, List.not_mem_nil, or_false] at hpath
    rcases hpath with (rfl | rfl | rfl | rfl) | ⟨rfl, -⟩ <;> decide
  obtain ⟨hstrategy, hcad, hlim, hoff⟩ := hne
  obtain ⟨l, hl, a, o, w, hlimit, -, hoptions, rfl⟩ :=
    (buildStrategy_calendar hs hcadence hc).mp hm
  obtain ⟨l', hl', a', o', w', hlimit', -, hoptions', rfl⟩ :=
    (buildStrategy_calendar (strategy_write hstrategy _ hs)
      ((get_write_of_ne hcad _).trans hcadence) hc).mp hm'
  have hoffset := hoptions'.offsetMinutes
  rw [get_write_of_ne hoff, hoptions.offsetMinutes] at hoffset
  rw [get_write_of_ne hlim, hlimit] at hlimit'
  obtain rfl : l = l' := by simpa using hlimit'
  obtain rfl := Except.ok.inj hoffset
  rcases hpath with hpath | ⟨-, hweek⟩
  · have hstart := hoptions'.weekStartsOn
    rw [get_write_of_ne (by rintro rfl; simp at hpath), hoptions.weekStartsOn] at hstart
    obtain rfl := Except.ok.inj hstart
    exact halike fun _ => rfl
  · exact halike (alike_week hl hweek)

/-! ### Accepted fields -/

/-- A spec that builds is of one of these strategies. -/
theorem strategy_cases (hbuild : buildStrategy name spec = .ok m) :
    ∃ s ∈ ["gcra", "tokenBucket", "fixedWindow", "slidingWindow", "slidingWindowLog", "quota"],
      spec.get "strategy" = some (.str s) := by
  unfold buildStrategy at hbuild
  split at hbuild
  · exact ⟨"gcra", by decide, ‹_›⟩
  · exact ⟨"tokenBucket", by decide, ‹_›⟩
  · exact ⟨"fixedWindow", by decide, ‹_›⟩
  · exact ⟨"slidingWindow", by decide, ‹_›⟩
  · exact ⟨"slidingWindowLog", by decide, ‹_›⟩
  · exact ⟨"quota", by decide, ‹_›⟩
  · cases hbuild

theorem not_read_prefix : ¬ Read name spec "prefix" := by
  rintro (h | h)
  · rcases h with h | ⟨h, -⟩ <;> exact absurd h (by decide)
  · exact not_effective_prefix h

/-- Any strategy but a quota reads all that it is listed to read, except for the prefix. -/
theorem read_iff_used_of_effective {s : String} {fields : List String} (hne : s ≠ "quota")
    (hs : spec.get "strategy" = some (.str s)) (hpath : path ∈ "strategy" :: "prefix" :: fields)
    (heffective : path ∈ fields → Effective name spec path) :
    Read name spec path ↔ Used spec.get path := by
  have hquota : spec.get "strategy" ≠ some (.str "quota") := by
    rw [hs]
    simpa using hne
  constructor
  · intro h
    refine ⟨?_, fun hq => absurd hq hquota, fun hq => absurd hq hquota⟩
    rintro rfl
    exact not_read_prefix h
  · intro h
    rw [List.mem_cons, List.mem_cons] at hpath
    rcases hpath with rfl | rfl | hpath
    · exact .inl (.inl rfl)
    · exact absurd rfl h.not_prefix
    · exact .inr (heffective hpath)

/-- What a quota reads, of what it is listed to read. -/
theorem read_iff_used_of_cadence {cadence : JsonValue}
    (hs : spec.get "strategy" = some (.str "quota"))
    (hcadence : spec.get "resetCadence" = some cadence)
    (hselects : "strategy" ∉ ignoredByQuota cadence ∧ "resetCadence" ∉ ignoredByQuota cadence)
    (hanchor : "anchor" ∉ ignoredByQuota cadence → (Effective name spec "anchor" ↔ ∀ p : ℚ,
      quotaPeriod (spec.get "period") (spec.get "periodMs") = .ok (some (.num p)) →
        ∀ k : ℤ, k * p ≠ 1))
    (hignored : path ∈ ignoredByQuota cadence → ¬ Effective name spec path)
    (heffective : path ∉ "strategy" :: "resetCadence" :: "prefix" :: "anchor" ::
      ignoredByQuota cadence → Effective name spec path) :
    Read name spec path ↔ Used spec.get path := by
  have hne : "anchor" ≠ "strategy" ∧ "anchor" ≠ "resetCadence" := by decide
  constructor
  · intro h
    refine ⟨?_, ?_, ?_⟩
    · rintro rfl
      exact not_read_prefix h
    · intro _ cadence' hcadence' hmem
      obtain rfl := Option.some.inj (hcadence.symm.trans hcadence')
      rcases h with (rfl | ⟨rfl, -⟩) | h
      · exact hselects.1 hmem
      · exact hselects.2 hmem
      · exact hignored hmem h
    · rintro _ rfl
      rcases h with (h | ⟨h, -⟩) | h
      · exact absurd h hne.1
      · exact absurd h hne.2
      · by_cases hmem : "anchor" ∈ ignoredByQuota cadence
        · exact absurd h (hignored hmem)
        · exact (hanchor hmem).mp h
  · intro h
    have hmem := h.quota hs cadence hcadence
    by_cases hstrategy : path = "strategy"
    · exact .inl (.inl hstrategy)
    by_cases hreset : path = "resetCadence"
    · exact .inl (.inr ⟨hreset, hs⟩)
    refine .inr ?_
    by_cases hpath : path = "anchor"
    · subst hpath
      exact (hanchor hmem).mpr (h.anchor hs rfl)
    · refine heffective ?_
      simp only [List.mem_cons, not_or]
      exact ⟨hstrategy, hreset, h.not_prefix, hpath, hmem⟩

/-- Only a calendar of weeks goes by the day they start on. -/
theorem ignoredByQuota_calendar {cadence : JsonValue} {c : Calendar.CalendarCadence}
    (hc : calendarCadence cadence = some c) :
    c = .week ∧ ignoredByQuota cadence = ["period", "periodMs", "anchor", "buckets"] ∨
      c ≠ .week ∧
        ignoredByQuota cadence = ["period", "periodMs", "anchor", "weekStartsOn", "buckets"] := by
  unfold calendarCadence at hc
  split at hc
  · obtain rfl := Option.some.inj hc
    exact .inr ⟨by simp, rfl⟩
  · obtain rfl := Option.some.inj hc
    exact .inl ⟨rfl, rfl⟩
  · obtain rfl := Option.some.inj hc
    exact .inr ⟨by simp, rfl⟩
  · cases hc

/-- **What the builder reads**, of the fields that the guards let through. -/
theorem read_iff_used {paths : List String} (hguarded : Guarded spec paths)
    (hbuild : buildStrategy name spec = .ok m) (hpath : path ∈ paths) :
    Read name spec path ↔ Used spec.get path := by
  have hwindow : path = "windowMs" ∨ path = "periodMs" → spec.get "period" = none := by
    rintro (rfl | rfl)
    · exact hguarded.period (.inl hpath)
    · exact hguarded.period (.inr hpath)
  obtain ⟨s, hmem, hs⟩ := strategy_cases hbuild
  have hconsumed : ∀ consumed, consumedByStrategy s = some consumed → path ∈ consumed :=
    fun consumed h => hguarded.consumed s consumed hs h path hpath
  simp only [List.mem_cons, List.not_mem_nil, or_false] at hmem
  rcases hmem with rfl | rfl | rfl | rfl | rfl | rfl
  · refine read_iff_used_of_effective (by decide) hs (hconsumed _ rfl) fun hfield => ?_
    simp only [List.mem_cons, List.not_mem_nil, or_false] at hfield
    rcases hfield with rfl | rfl | rfl | rfl | rfl
    · exact effective_gcra_limit hs hbuild
    · exact effective_gcra_window hs hbuild (.inl rfl)
    · exact effective_gcra_window hs hbuild (.inr (.inl ⟨rfl, hwindow (.inr rfl)⟩))
    · exact effective_gcra_window hs hbuild
        (.inr (.inr ⟨rfl, hwindow (.inl rfl), hguarded.periodMs hpath hs⟩))
    · exact effective_gcra_burst hs hbuild
  · refine read_iff_used_of_effective (by decide) hs (hconsumed _ rfl) fun hfield => ?_
    simp only [List.mem_cons, List.not_mem_nil, or_false] at hfield
    rcases hfield with rfl | rfl
    · exact effective_capacity hs hbuild
    · exact effective_refill hs hbuild
  · refine read_iff_used_of_effective (by decide) hs (hconsumed _ rfl) fun hfield => ?_
    simp only [List.mem_cons, List.not_mem_nil, or_false] at hfield
    rcases hfield with rfl | rfl | rfl
    · exact effective_fixedWindow hs hbuild (.inl rfl)
    · exact effective_fixedWindow hs hbuild (.inr (.inl rfl))
    · exact effective_fixedWindow hs hbuild (.inr (.inr ⟨rfl, hwindow (.inl rfl)⟩))
  · refine read_iff_used_of_effective (by decide) hs (hconsumed _ rfl) fun hfield => ?_
    simp only [List.mem_cons, List.not_mem_nil, or_false] at hfield
    rcases hfield with rfl | rfl | rfl | rfl
    · exact effective_slidingWindow hs hbuild (.inl rfl)
    · exact effective_slidingWindow hs hbuild (.inr (.inl rfl))
    · exact effective_slidingWindow hs hbuild (.inr (.inr ⟨rfl, hwindow (.inl rfl)⟩))
    · exact effective_buckets hs hbuild
  · refine read_iff_used_of_effective (by decide) hs (hconsumed _ rfl) fun hfield => ?_
    simp only [List.mem_cons, List.not_mem_nil, or_false] at hfield
    rcases hfield with rfl | rfl | rfl
    · exact effective_slidingWindowLog hs hbuild (.inl rfl)
    · exact effective_slidingWindowLog hs hbuild (.inr (.inl rfl))
    · exact effective_slidingWindowLog hs hbuild (.inr (.inr ⟨rfl, hwindow (.inl rfl)⟩))
  · have hlisted := hconsumed _ rfl
    simp only [List.mem_cons, List.not_mem_nil, or_false] at hlisted
    rcases cadence_cases hs hbuild with hcadence | hcadence | ⟨cadence, c, hcadence, hc⟩
    · refine read_iff_used_of_cadence hs hcadence (by decide) (fun h => absurd h (by decide))
        (not_effective_rolling hs hcadence) fun hnot => effective_rolling hs hcadence hbuild ?_
      simp only [ignoredByQuota, List.mem_cons, List.not_mem_nil, or_false, not_or] at hnot
      have hperiodMs : path = "periodMs" → spec.get "period" = none := fun h => hwindow (.inr h)
      tauto
    · refine read_iff_used_of_cadence hs hcadence (by decide)
        (fun _ => effective_anchor_iff hs hcadence hbuild) (not_effective_fixed hs hcadence)
        fun hnot => effective_fixed hs hcadence hbuild ?_
      simp only [ignoredByQuota, List.mem_cons, List.not_mem_nil, or_false, not_or] at hnot
      have hperiodMs : path = "periodMs" → spec.get "period" = none := fun h => hwindow (.inr h)
      tauto
    · rcases ignoredByQuota_calendar hc with ⟨hweek, hignored⟩ | ⟨hweek, hignored⟩
      · refine read_iff_used_of_cadence hs hcadence (by rw [hignored]; decide)
          (fun h => absurd h (by rw [hignored]; decide))
          (fun h => not_effective_calendar hs hcadence hc (.inl (by rwa [hignored] at h)))
          fun hnot => effective_calendar hs hcadence hc hbuild ?_
        simp only [hignored, List.mem_cons, List.not_mem_nil, or_false, not_or] at hnot
        tauto
      · refine read_iff_used_of_cadence hs hcadence (by rw [hignored]; decide)
          (fun h => absurd h (by rw [hignored]; decide))
          (fun h => not_effective_calendar hs hcadence hc ?_)
          fun hnot => effective_calendar hs hcadence hc hbuild ?_
        · simp only [hignored, List.mem_cons, List.not_mem_nil, or_false] at h ⊢
          tauto
        · simp only [hignored, List.mem_cons, List.not_mem_nil, or_false, not_or] at hnot
          tauto

/-! ### Candidates -/

/-- **An accepted candidate writes no inert field just if it uses all it writes**: no prefix, and
for a quota no field that its cadence leaves alone. -/
theorem written_fields_read_iff {base : JsonValue} {cand : Candidate} {r : ResolvedCandidate}
    (hresolve : resolveCandidate base cand = .ok r) (hbuild : buildStrategy name r.spec = .ok m) :
    (∀ path ∈ cand.paths, Read name r.spec path) ↔
      ∀ path ∈ cand.paths, Used (cand.valueOf base) path := by
  obtain ⟨hget, hguarded⟩ := resolveCandidate_spec hresolve
  have hfields : r.spec.get = cand.valueOf base := funext hget
  refine forall₂_congr fun path hpath => ?_
  rw [← hfields]
  exact read_iff_used hguarded hbuild hpath

/-- A quota that is recorded, of five a day. -/
def fiveDaily : JsonValue :=
  .obj [("strategy", .str "quota"), ("limit", .num 5), ("resetCadence", .str "calendar-day")]

/-- A candidate of ten a day. -/
def tenDaily : Candidate := ⟨"limit x2", [.set "limit" (some (.num 10))]⟩

/-- A candidate whose weeks start on Wednesdays. -/
def fromWednesday : Candidate := ⟨"weeks from wednesday", [.set "weekStartsOn" (some (.num 3))]⟩

theorem build_daily {l : ℚ} {w : ℤ} (hl : 0 < l) (hw : 0 ≤ w ∧ w ≤ 6)
    (hs : spec.get "strategy" = some (.str "quota"))
    (hcadence : spec.get "resetCadence" = some (.str "calendar-day"))
    (hlimit : spec.get "limit" = some (.num l))
    (hnone : ∀ path ∈ ["period", "periodMs", "anchor", "offsetMinutes"], spec.get path = none)
    (hweek : integerOr "quota.weekStartsOn" (spec.get "weekStartsOn") 1 = .ok w) :
    buildStrategy name spec = .ok (.quota ⟨l, .calendar .day 0 w, hl⟩) := by
  refine (buildStrategy_calendar hs hcadence rfl).mpr ⟨l, hl, 0, 0, w, hlimit, ⟨none, ?_⟩, ?_, rfl⟩
  · rw [hnone "period" (by simp), hnone "periodMs" (by simp)]
    rfl
  · unfold Options
    rw [hnone "anchor" (by simp), hnone "offsetMinutes" (by simp)]
    exact ⟨rfl, by norm_num, hweek, hw, rfl⟩

theorem written_fields_read_ten : ∃ r : ResolvedCandidate,
    resolveCandidate fiveDaily tenDaily = .ok r ∧
      ∀ path ∈ tenDaily.paths, Read "api" r.spec path := by
  have hten : (0 : ℚ) < 10 := by norm_num
  obtain ⟨r, hr⟩ : ∃ r, resolveCandidate fiveDaily tenDaily = .ok r := ⟨_, rfl⟩
  have hget := (resolveCandidate_spec hr).1
  have hbuild : buildStrategy "api" r.spec = .ok (.quota ⟨10, .calendar .day 0 1, hten⟩) := by
    refine build_daily hten (by norm_num) ?_ ?_ ?_ ?_ ?_
    · exact hget "strategy"
    · exact hget "resetCadence"
    · exact hget "limit"
    · intro path hpath
      rw [hget path]
      revert path
      decide
    · rw [hget "weekStartsOn"]
      rfl
  refine ⟨r, hr, (written_fields_read_iff hr hbuild).mpr fun path hpath => ?_⟩
  obtain rfl : path = "limit" := by simpa [tenDaily, Candidate.paths] using hpath
  refine ⟨by decide, fun _ cadence hcadence => ?_, fun _ h => absurd h (by decide)⟩
  obtain rfl : JsonValue.str "calendar-day" = cadence := Option.some.inj hcadence
  decide

/-- **The candidate from Wednesdays is accepted, and a quota of days does not read it.** -/
theorem weekStartsOn_not_read : ∃ (r : ResolvedCandidate) (m m' : Peekable),
    buildStrategy "api" fiveDaily = .ok m ∧ resolveCandidate fiveDaily fromWednesday = .ok r ∧
      buildStrategy "api" r.spec = .ok m' ∧
        "weekStartsOn" ∈ fromWednesday.paths ∧ ¬ Read "api" r.spec "weekStartsOn" := by
  have hfive : (0 : ℚ) < 5 := by norm_num
  refine ⟨_, _, _, build_daily hfive (by norm_num) rfl rfl rfl (by decide) rfl, rfl,
    build_daily hfive (by norm_num) rfl rfl rfl (by decide) (integerOr_num _ 3 _),
    by simp [fromWednesday, Candidate.paths], ?_⟩
  rintro ((h | ⟨h, -⟩) | h)
  · exact absurd h (by decide)
  · exact absurd h (by decide)
  · exact not_effective_calendar rfl rfl rfl (.inr ⟨rfl, by simp⟩) h

end Written

end ThrottleKit.Candidates
