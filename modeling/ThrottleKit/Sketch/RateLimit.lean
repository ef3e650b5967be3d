import Mathlib.Data.Nat.Bitwise
import ThrottleKit.Lib.Machine
import ThrottleKit.Lib.Rounding
import ThrottleKit.Sketch.CountMinSketch

/-!
# The sketch rate limiter

One sketch counts what was admitted in the current window, for all keys. A check reads the estimate
of its key, admits while the estimate and the cost stay within the limit, and only then adds the
cost. The first check at or after the end of the window clears the sketch and starts the window of
its own instant.

The estimate is at least the true count up to the counter ceiling, so a limit below `2 ^ 32` is
never passed within a window, whatever the hashing does. Past the ceiling the estimate stops growing
while the true count goes on: with a limit from `2 ^ 32` on, a check of cost one is always admitted.

The results of arithmetic are rounded. Where the end that is computed for the window of a clock
reading is not past the reading, every check at that reading clears the sketch and starts the same
window again.

## Main definitions

* `checkSync` — one check
* `spent` — what was admitted for a key in a window
* `Bounded` — the invariant of a limit below the ceiling

## Main results

* `Bounded.step` — every check keeps it
* `exists_slot` — some key has a counter, whatever the shape and the seed
* `never_over_admits_iff` — when the limit is kept
-/

namespace ThrottleKit.Sketch

open Rounding

/-- The options of `sketchRateLimit`, validated, but for those of the sketch. -/
structure Limits where
  /-- Maximum units admitted per key within each window. -/
  limit : ℚ
  windowMs : ℚ
  limit_pos : 0 < limit
  windowMs_pos : 0 < windowMs

/-- The limiter. -/
structure Limiter (cfg : Config) where
  sketch : CountMinSketch cfg
  /-- Start of the current window; `-Infinity` when `none`. -/
  windowStart : Option ℚ

section Check

variable [Rounding] {cfg : Config}

/-- A new limiter. -/
def Limiter.start (cfg : Config) : Limiter cfg := ⟨.empty cfg, none⟩

/-- The sketch and the window of a check at `now`: new ones at or after the end of the window. -/
def Limiter.roll (lim : Limits) (l : Limiter cfg) (now : ℚ) : CountMinSketch cfg × ℚ :=
  match l.windowStart with
  | none => (l.sketch.clear, startOf lim.windowMs now)
  | some w =>
    if fl (w + lim.windowMs) ≤ now then (l.sketch.clear, startOf lim.windowMs now)
    else (l.sketch, w)

/-- `estimate + cost <= limit`. -/
def fits (lim : Limits) (estimate : WithTop ℕ) (cost : ℕ) : Prop :=
  match estimate with
  | none => False
  | some e => fl (e + cost : ℚ) ≤ lim.limit

instance (lim : Limits) (estimate : WithTop ℕ) (cost : ℕ) : Decidable (fits lim estimate cost) :=
  match estimate with
  | none => inferInstanceAs (Decidable False)
  | some e => inferInstanceAs (Decidable (fl (e + cost : ℚ) ≤ lim.limit))

/-- `Math.max(0, Math.floor(limit - used))`. -/
def remaining (lim : Limits) (used : WithTop ℕ) : ℚ :=
  match used with
  | none => 0
  | some u => max 0 ⌊fl (lim.limit - u)⌋

/-- A check of a whole cost, in the window it rolled to. -/
def checkIn (lim : Limits) (sketch : CountMinSketch cfg) (windowStart : ℚ) (key : Key) (cost : ℕ)
    (now : ℚ) : Limiter cfg × Decision :=
  let resetAt := fl (windowStart + lim.windowMs)
  let estimate := sketch.estimate key
  if fits lim estimate cost then
    let r := sketch.add key cost
    (⟨r.1, some windowStart⟩, ⟨true, lim.limit, remaining lim r.2, ⌈resetAt⌉, 0⟩)
  else
    (⟨sketch, some windowStart⟩,
      ⟨false, lim.limit, remaining lim estimate, ⌈resetAt⌉, ⌈fl (resetAt - now)⌉⟩)

/-- What a check said: for its key, in its window. -/
structure Event where
  key : Key
  windowStart : ℚ
  cost : ℕ
  decision : Decision

/-- One check, which validates the cost first. -/
def checkSync (lim : Limits) (l : Limiter cfg) (key : Key) (cost now : ℚ) :
    Except CountError (Limiter cfg × Event) :=
  match requireCount "sketchRateLimit.cost" cost with
  | .error e => .error e
  | .ok n =>
    let r := l.roll lim now
    let d := checkIn lim r.1 r.2 key n now
    .ok (d.1, ⟨key, r.2, n, d.2⟩)

/-- A check of `key`, with its cost and its clock reading. -/
structure Request where
  key : Key
  cost : ℚ
  now : ℚ

/-- The limiter over the checks that reach it. One that throws changes nothing. -/
def limiter (cfg : Config) (lim : Limits) : Machine (Limiter cfg) Request Event := fun l r =>
  match checkSync lim l r.key r.cost r.now with
  | .ok (l', e) => some (l', [e])
  | .error _ => some (l, [])

end Check

/-- The updates of the checks that were admitted in a window. -/
def admittedIn (log : List Event) (w : ℚ) : List (Key × ℕ) :=
  (log.filter fun e => e.decision.allowed ∧ e.windowStart = w).map fun e => (e.key, e.cost)

/-- What was admitted for a key in a window. -/
def spent (log : List Event) (key : Key) (w : ℚ) : ℕ := CountMin.trueCount (admittedIn log w) key

/-! ### A limit below the ceiling -/

section Below

variable {cfg : Config} {lim : Limits} {log : List Event} {e : Event} {w : ℚ}

theorem admittedIn_eq_nil (h : ∀ e ∈ log, e.windowStart ≠ w) : admittedIn log w = [] := by
  rw [admittedIn, List.map_eq_nil_iff, List.filter_eq_nil_iff]
  intro e he hin
  exact h e he (by simpa using (of_decide_eq_true hin).2)

theorem admittedIn_concat_of_denied (h : e.decision.allowed = false) :
    admittedIn (log ++ [e]) w = admittedIn log w := by
  simp [admittedIn, h]

theorem admittedIn_concat_of_ne (h : e.windowStart ≠ w) :
    admittedIn (log ++ [e]) w = admittedIn log w := by
  simp [admittedIn, h]

theorem admittedIn_concat (h : e.decision.allowed = true) :
    admittedIn (log ++ [e]) e.windowStart = admittedIn log e.windowStart ++ [(e.key, e.cost)] := by
  simp [admittedIn, h]

variable [Rounding]

/-- The sketch covers what was admitted in the current window, no window was overspent, and none
later than the current one was opened. -/
structure Bounded (lim : Limits) (l : Limiter cfg) (log : List Event) : Prop where
  covers : ∀ w, l.windowStart = some w →
    CountMin.Covers maxU32 (slots cfg) (admittedIn log w) (table l.sketch.counters)
  within : ∀ key w, (spent log key w : ℚ) ≤ lim.limit
  opened : ∀ e ∈ log, ∃ w, l.windowStart = some w ∧ e.windowStart ≤ w
  /-- The current window was not over at the reading that started it. -/
  started : ∀ w, l.windowStart = some w → ∃ t, Inside lim.windowMs t ∧ startOf lim.windowMs t = w

theorem bounded_start : Bounded lim (.start cfg) [] where
  covers w hw := by cases hw
  within key w := by
    show ((0 : ℕ) : ℚ) ≤ lim.limit
    exact_mod_cast lim.limit_pos.le
  opened e he := by cases he
  started w hw := by cases hw

/-- A window later than all that were opened covers nothing yet. -/
theorem Bounded.fresh {l : Limiter cfg} (h : Bounded lim l log) {now : ℚ}
    (hnow : Inside lim.windowMs now)
    (hlater : ∀ v, l.windowStart = some v → v < startOf lim.windowMs now) (s : CountMinSketch cfg) :
    Bounded lim ⟨s, some (startOf lim.windowMs now)⟩ log where
  covers w' hw' := by
    obtain rfl := Option.some.inj hw'
    rw [admittedIn_eq_nil fun e he => ?_]
    · exact CountMin.covers_nil _
    · obtain ⟨v, hv, hle⟩ := h.opened e he
      exact (hle.trans_lt (hlater v hv)).ne
  within := h.within
  opened e he := by
    obtain ⟨v, hv, hle⟩ := h.opened e he
    exact ⟨_, rfl, hle.trans (hlater v hv).le⟩
  started w' hw' := ⟨now, hnow, Option.some.inj hw'⟩

/-- Rolling to the window of a check keeps the invariant, where that window is not over yet. -/
theorem Bounded.roll {l : Limiter cfg} (h : Bounded lim l log) {now : ℚ}
    (hnow : Inside lim.windowMs now) :
    Bounded lim ⟨(l.roll lim now).1, some (l.roll lim now).2⟩ log := by
  unfold Limiter.roll
  split
  · rename_i hnone
    refine h.fresh hnow (fun v hv => ?_) _
    rw [hnone] at hv
    cases hv
  · rename_i v hv
    split
    · rename_i hend
      refine h.fresh hnow (fun v' hv' => ?_) _
      obtain rfl := Option.some.inj (hv.symm.trans hv')
      obtain ⟨t, ht, rfl⟩ := h.started v hv
      exact startOf_lt_of_ended lim.windowMs_pos ht hnow hend
    · obtain ⟨s, ws⟩ := l
      obtain rfl : ws = some v := hv
      exact h

/-- A denial adds nothing. -/
theorem Bounded.denied {s : CountMinSketch cfg} (h : Bounded lim ⟨s, some w⟩ log)
    (he : e.decision.allowed = false) (hw : e.windowStart = w) :
    Bounded lim ⟨s, some w⟩ (log ++ [e]) where
  covers w' hw' := by
    rw [admittedIn_concat_of_denied he]
    exact h.covers w' hw'
  within key w' := by
    rw [spent, admittedIn_concat_of_denied he]
    exact h.within key w'
  opened e' he' := by
    rcases List.mem_append.mp he' with hmem | hmem
    · exact h.opened e' hmem
    · obtain rfl := List.mem_singleton.mp hmem
      exact ⟨w, rfl, hw.le⟩
  started := h.started

/-- What was admitted is added, when it fits in truth. -/
theorem Bounded.admitted {s : CountMinSketch cfg} (h : Bounded lim ⟨s, some w⟩ log)
    (he : e.decision.allowed = true) (hw : e.windowStart = w)
    (hfit : ((spent log e.key w + e.cost : ℕ) : ℚ) ≤ lim.limit) :
    Bounded lim ⟨(s.add e.key e.cost).1, some w⟩ (log ++ [e]) where
  covers w' hw' := by
    obtain rfl := Option.some.inj hw'
    subst hw
    rw [admittedIn_concat he]
    exact CountMinSketch.covers_add (h.covers _ rfl) _ _
  within key w' := by
    by_cases hww : e.windowStart = w'
    · have hwin := h.within key w'
      subst hww
      rw [spent, admittedIn_concat he, CountMin.trueCount_append, CountMin.trueCount_singleton]
      split
      · rename_i hkey
        subst hkey hw
        exact hfit
      · exact hwin
    · rw [spent, admittedIn_concat_of_ne hww]
      exact h.within key w'
  opened e' he' := by
    rcases List.mem_append.mp he' with hmem | hmem
    · exact h.opened e' hmem
    · obtain rfl := List.mem_singleton.mp hmem
      exact ⟨w, rfl, hw.le⟩
  started := h.started

/-- A sum that fits is not rounded. -/
theorem add_le_of_fits (hlim : lim.limit < 2 ^ 32) {k n : ℕ} (h : fits lim (WithTop.some k) n) :
    ((k + n : ℕ) : ℚ) ≤ lim.limit := by
  have hfl : fl ((k + n : ℕ) : ℚ) ≤ lim.limit := by
    rw [Nat.cast_add]
    exact h
  rcases le_or_gt (k + n) (2 ^ 53) with hle | hgt
  · rwa [fl_natCast hle] at hfl
  · -- A sum past `2 ^ 53` stays past it.
    have hbig : ((2 ^ 53 : ℕ) : ℚ) ≤ fl ((k + n : ℕ) : ℚ) := by
      rw [← fl_natCast (le_refl (2 ^ 53))]
      exact mono (by exact_mod_cast hgt.le)
    have hlt : ((2 ^ 53 : ℕ) : ℚ) < 2 ^ 32 := hbig.trans_lt (hfl.trans_lt hlim)
    norm_num at hlt

/-- What fits by the estimate fits in truth, below the ceiling: had the true count reached the
ceiling, so had the estimate. -/
theorem Bounded.spent_add_le (hlim : lim.limit < 2 ^ 32) {s : CountMinSketch cfg}
    (h : Bounded lim ⟨s, some w⟩ log) {n : ℕ} (hn : 0 < n) {key : Key}
    (hfits : fits lim (s.estimate key) n) : ((spent log key w + n : ℕ) : ℚ) ≤ lim.limit := by
  have hest : WithTop.some (min (spent log key w) maxU32) ≤ s.estimate key := by
    rw [CountMinSketch.estimate, least_eq]
    exact (h.covers w rfl).le_estimate key
  cases he : s.estimate key with
  | top =>
    rw [he] at hfits
    cases hfits
  | coe e =>
    rw [he] at hest hfits
    have hle : min (spent log key w) maxU32 ≤ e := WithTop.coe_le_coe.mp hest
    have hfit : ((e + n : ℕ) : ℚ) ≤ lim.limit := add_le_of_fits hlim hfits
    have hlt : e + n < 2 ^ 32 := by exact_mod_cast hfit.trans_lt hlim
    have hceil : maxU32 + 1 = 2 ^ 32 := rfl
    have hsum : spent log key w + n ≤ e + n := by omega
    exact le_trans (by exact_mod_cast hsum) hfit

/-- **A check keeps the invariant.** -/
theorem Bounded.check (hlim : lim.limit < 2 ^ 32) {s : CountMinSketch cfg}
    (h : Bounded lim ⟨s, some w⟩ log) {n : ℕ} (hn : 0 < n) (key : Key) (now : ℚ) :
    Bounded lim (checkIn lim s w key n now).1
      (log ++ [⟨key, w, n, (checkIn lim s w key n now).2⟩]) := by
  unfold checkIn
  dsimp only
  split
  · rename_i hfits
    exact h.admitted (e := ⟨key, w, n, _⟩) rfl rfl (h.spent_add_le hlim hn hfits)
  · exact h.denied rfl rfl

/-- **Every request keeps the invariant**, where its window is not over yet. -/
theorem Bounded.step (hlim : lim.limit < 2 ^ 32) {l l' : Limiter cfg} (h : Bounded lim l log)
    {r : Request} (hnow : Inside lim.windowMs r.now) {new : List Event}
    (hstep : limiter cfg lim l r = some (l', new)) :
    Bounded lim l' (log ++ new) := by
  unfold limiter checkSync at hstep
  cases hcost : requireCount "sketchRateLimit.cost" r.cost with
  | error e =>
    rw [hcost] at hstep
    obtain ⟨rfl, rfl⟩ := Prod.mk.inj (Option.some.inj hstep)
    simpa using h
  | ok n =>
    rw [hcost] at hstep
    obtain ⟨rfl, rfl⟩ := Prod.mk.inj (Option.some.inj hstep)
    exact (h.roll hnow).check hlim (requireCount_spec hcost).1 r.key r.now

theorem bounded_of_run (hlim : lim.limit < 2 ^ 32) {clock : Set ℚ}
    (hclock : ∀ now ∈ clock, Inside lim.windowMs now) {l : Limiter cfg}
    (h : (limiter cfg lim).Run (fun _ r => r.now ∈ clock) (.start cfg) log l) :
    Bounded lim l log := by
  refine Machine.Run.invariant (I := Bounded lim) bounded_start ?_ h
  intro l log r l' new hl hr hstep
  exact hl.step hlim (hclock r.now hr) hstep

/-! ### A limit below one -/

/-- No whole cost fits in a limit below one. -/
theorem not_fits (hlim : lim.limit < 1) {n : ℕ} (hn : 0 < n) (estimate : WithTop ℕ) :
    ¬ fits lim estimate n := by
  intro h
  cases estimate with
  | top => cases h
  | coe k =>
    have hone : (1 : ℚ) ≤ fl ((k : ℚ) + n) := by
      rw [← fl_one]
      exact mono (by exact_mod_cast (by omega : 1 ≤ k + n))
    exact absurd (hone.trans h) (not_le.mpr hlim)

theorem spent_eq_zero_of_run (hlim : lim.limit < 1) {clock : Set ℚ} {l : Limiter cfg}
    (h : (limiter cfg lim).Run (fun _ r => r.now ∈ clock) (.start cfg) log l) (key : Key) (w : ℚ) :
    spent log key w = 0 := by
  have hdenied : ∀ e ∈ log, e.decision.allowed = false := by
    refine Machine.Run.invariant (I := fun _ log => ∀ e ∈ log, e.decision.allowed = false)
      (by simp) ?_ h
    intro l log r l' new hlog _ hstep e he
    rcases List.mem_append.mp he with hmem | hmem
    · exact hlog e hmem
    unfold limiter checkSync at hstep
    cases hcost : requireCount "sketchRateLimit.cost" r.cost with
    | error err =>
      rw [hcost] at hstep
      obtain ⟨-, rfl⟩ := Prod.mk.inj (Option.some.inj hstep)
      cases hmem
    | ok n =>
      rw [hcost] at hstep
      obtain ⟨-, rfl⟩ := Prod.mk.inj (Option.some.inj hstep)
      obtain rfl := List.mem_singleton.mp hmem
      show (checkIn lim _ _ r.key n r.now).2.allowed = false
      rw [checkIn, if_neg (not_fits hlim (requireCount_spec hcost).1 _)]
  have hnil : admittedIn log w = [] := by
    rw [admittedIn, List.map_eq_nil_iff, List.filter_eq_nil_iff]
    intro e he hin
    exact absurd (of_decide_eq_true hin).1 (by simp [hdenied e he])
  rw [spent, hnil]
  rfl

end Below

/-! ### A limit from the ceiling on -/

section Beyond

/-- Among 256 steps of the prime, one lands in the lower half. -/
theorem exists_step_lt (a : ℕ) : ∃ j < 256, (256 * a + j) * 16777619 % 2 ^ 32 < 2 ^ 31 := by
  by_cases h : 256 * a * 16777619 % 2 ^ 32 < 2 ^ 31
  · exact ⟨0, by decide, by simpa using h⟩
  · -- The first step past a multiple of `2 ^ 32` lands within a step of it.
    have hstart := Nat.div_add_mod (256 * a * 16777619) (2 ^ 32)
    have hlt : 256 * a * 16777619 % 2 ^ 32 < 2 ^ 32 := Nat.mod_lt _ (by decide)
    generalize 256 * a * 16777619 % 2 ^ 32 = start at h hstart hlt
    generalize 256 * a * 16777619 / 2 ^ 32 = laps at hstart
    obtain ⟨j, hreach, hfirst⟩ : ∃ j, 2 ^ 32 ≤ start + j * 16777619 ∧
        start + j * 16777619 < 2 ^ 32 + 16777619 :=
      ⟨(2 ^ 32 - start + 16777618) / 16777619, by omega, by omega⟩
    refine ⟨j, by omega, ?_⟩
    have hlap : (256 * a + j) * 16777619
        = 2 ^ 32 * (laps + 1) + (start + j * 16777619 - 2 ^ 32) := by omega
    rw [hlap, Nat.mul_add_mod, Nat.mod_eq_of_lt (by omega)]
    omega

/-- The last byte of a string may be any, and so may the low byte of what is hashed last. -/
theorem exists_xor_lt (x : ℕ) : ∃ hi < 256, (x ^^^ hi) * 16777619 % 2 ^ 32 < 2 ^ 31 := by
  obtain ⟨j, hj, hlt⟩ := exists_step_lt (x / 256)
  have hlow : x % 256 ^^^ j < 256 := Nat.xor_lt_two_pow (n := 8) (Nat.mod_lt _ (by decide)) hj
  have hdiv : (x ^^^ (x % 256 ^^^ j)) / 2 ^ 8 = x / 256 := by
    rw [Nat.xor_div_two_pow, Nat.div_eq_of_lt hlow, Nat.xor_zero]
  have hmod : (x ^^^ (x % 256 ^^^ j)) % 2 ^ 8 = j := by
    rw [Nat.xor_mod_two_pow, Nat.mod_eq_of_lt hlow]
    exact Nat.xor_xor_cancel_left _ _
  have hsplit := Nat.div_add_mod (x ^^^ (x % 256 ^^^ j)) (2 ^ 8)
  rw [hdiv, hmod] at hsplit
  refine ⟨_, hlow, ?_⟩
  rw [← hsplit]
  exact hlt

theorem bytes_of_high : ∀ hi < 256, (UInt16.ofNat (256 * hi) &&& 0xff).toUInt32 = 0 ∧
    ((UInt16.ofNat (256 * hi) >>> 8) &&& 0xff).toUInt32 = UInt32.ofNat hi := by
  decide +kernel

theorem exists_fnv1a_lt (basis : UInt32) : ∃ key, (fnv1a key basis).toNat < 2 ^ 31 := by
  obtain ⟨hi, hhi, hlt⟩ := exists_xor_lt (basis * fnvPrime).toNat
  obtain ⟨hzero, hhigh⟩ := bytes_of_high hi hhi
  refine ⟨[UInt16.ofNat (256 * hi)], ?_⟩
  rw [fnv1a, List.foldl_cons, List.foldl_nil, hzero, hhigh, UInt32.xor_zero, UInt32.toNat_mul,
    UInt32.toNat_xor, UInt32.toNat_ofNat', Nat.mod_eq_of_lt (show hi < 2 ^ 32 by omega)]
  exact hlt

/-- **Some key has a counter**, whatever the shape and the seed. -/
theorem exists_slot (cfg : Config) : ∃ key i, i ∈ slots cfg key := by
  obtain ⟨key, hlt⟩ := exists_fnv1a_lt (rowSeed cfg 0)
  have hle : (fnv1a key (rowSeed cfg 0)).toNat % cfg.width ≤ (fnv1a key (rowSeed cfg 0)).toNat :=
    Nat.mod_le _ _
  have hcol : col cfg key 0 = ((fnv1a key (rowSeed cfg 0)).toNat % cfg.width : ℕ) :=
    Int.bmod_eq_of_le (by omega) (by omega)
  have hwidth : (fnv1a key (rowSeed cfg 0)).toNat % cfg.width < cfg.width :=
    Nat.mod_lt _ cfg.width_pos
  have hsize : cfg.width ≤ cfg.size := Nat.le_mul_of_pos_left _ cfg.depth_pos
  refine ⟨key, _, List.mem_filterMap.mpr ⟨0, List.mem_range.mpr cfg.depth_pos, if_pos ?_⟩⟩
  rw [hcol]
  omega

variable [Rounding] {cfg : Config} {lim : Limits} {key : Key}

/-- Past the ceiling, a check of cost one fits whatever the counters say. -/
theorem fits_one (hlim : 2 ^ 32 ≤ lim.limit) {i : ℕ} (hi : i ∈ slots cfg key)
    (s : CountMinSketch cfg) : fits lim (s.estimate key) 1 := by
  have hest : s.estimate key ≤ WithTop.some (table s.counters i) := by
    rw [CountMinSketch.estimate, least_eq]
    exact CountMin.estimate_le _ hi
  cases he : s.estimate key with
  | top =>
    rw [he] at hest
    exact absurd (top_le_iff.mp hest) (WithTop.coe_ne_top)
  | coe e =>
    rw [he] at hest
    have hle : e + 1 ≤ 2 ^ 32 :=
      Nat.succ_le_succ ((WithTop.coe_le_coe.mp hest).trans (table_le _ i))
    show fl ((e : ℚ) + (1 : ℕ)) ≤ lim.limit
    rw [← Nat.cast_add, fl_natCast (by omega)]
    exact le_trans (by exact_mod_cast hle) hlim

/-- In a sketch just cleared, it fits in any limit of at least one. -/
theorem fits_one_clear (hlim : 1 ≤ lim.limit) {i : ℕ} (hi : i ∈ slots cfg key)
    (s : CountMinSketch cfg) : fits lim (s.clear.estimate key) 1 := by
  have hest : s.clear.estimate key ≤ WithTop.some (table s.clear.counters i) := by
    rw [CountMinSketch.estimate, least_eq]
    exact CountMin.estimate_le _ hi
  rw [CountMinSketch.table_clear] at hest
  cases he : s.clear.estimate key with
  | top =>
    rw [he] at hest
    exact absurd (top_le_iff.mp hest) (WithTop.coe_ne_top)
  | coe e =>
    rw [he] at hest
    obtain rfl : e = 0 := Nat.le_zero.mp (WithTop.coe_le_coe.mp hest)
    show fl (((0 : ℕ) : ℚ) + (1 : ℕ)) ≤ lim.limit
    rw [← Nat.cast_add, fl_natCast (by norm_num)]
    exact_mod_cast hlim

/-- A limiter that has only been asked at `now`. -/
def AskedAt (lim : Limits) (now : ℚ) (l : Limiter cfg) : Prop :=
  l.windowStart = none ∨ l.windowStart = some (startOf lim.windowMs now)

theorem AskedAt.roll_snd {l : Limiter cfg} {now : ℚ} (h : AskedAt lim now l) :
    (l.roll lim now).2 = startOf lim.windowMs now := by
  rw [Limiter.roll]
  rcases h with hnone | hsome
  · rw [hnone]
  · rw [hsome]
    dsimp only
    split <;> rfl

/-- Where the window of `now` is over at `now`, every check there clears the sketch. -/
theorem AskedAt.roll_fst {l : Limiter cfg} {now : ℚ} (h : AskedAt lim now l)
    (hnow : ¬ Inside lim.windowMs now) : (l.roll lim now).1 = l.sketch.clear := by
  rw [Limiter.roll]
  rcases h with hnone | hsome
  · rw [hnone]
  · rw [hsome]
    have hover : fl (startOf lim.windowMs now + lim.windowMs) ≤ now := not_lt.mp hnow
    dsimp only
    rw [if_pos hover]

/-- An admitted check of cost one. -/
theorem limiter_one {l : Limiter cfg} {now : ℚ}
    (hfits : fits lim ((l.roll lim now).1.estimate key) 1) : ∃ s d, d.allowed = true ∧
      limiter cfg lim l ⟨key, 1, now⟩
        = some (⟨s, some (l.roll lim now).2⟩, [⟨key, (l.roll lim now).2, 1, d⟩]) := by
  have hcost : requireCount "sketchRateLimit.cost" 1 = .ok 1 := by decide +kernel
  refine ⟨((l.roll lim now).1.add key 1).1,
    (checkIn lim (l.roll lim now).1 (l.roll lim now).2 key 1 now).2, ?_, ?_⟩
  · rw [checkIn, if_pos hfits]
  · unfold limiter checkSync
    rw [hcost]
    dsimp only
    rw [checkIn, if_pos hfits]

/-- Checks of cost one at one reading, each of which is admitted. -/
theorem exists_spent {clock : Set ℚ} {now : ℚ} (hnow : now ∈ clock)
    (hfits : ∀ l : Limiter cfg, AskedAt lim now l →
      fits lim ((l.roll lim now).1.estimate key) 1) (n : ℕ) :
    ∃ log l, (limiter cfg lim).Run (fun _ r => r.now ∈ clock) (.start cfg) log l ∧
      AskedAt lim now l ∧ spent log key (startOf lim.windowMs now) = n := by
  induction n with
  | zero => exact ⟨[], .start cfg, .nil, .inl rfl, rfl⟩
  | succ n ih =>
    obtain ⟨log, l, hrun, hasked, hspent⟩ := ih
    obtain ⟨s, d, hd, hstep⟩ := limiter_one (hfits l hasked)
    rw [hasked.roll_snd] at hstep
    refine ⟨_, _, hrun.snoc hnow hstep, .inr rfl, ?_⟩
    have hadd : admittedIn (log ++ [⟨key, startOf lim.windowMs now, 1, d⟩])
        (startOf lim.windowMs now)
          = admittedIn log (startOf lim.windowMs now) ++ [(key, 1)] := admittedIn_concat hd
    rw [spent, hadd, CountMin.trueCount_append, CountMin.trueCount_singleton, if_pos rfl]
    exact congrArg (· + 1) hspent

/-- They pass any limit. -/
theorem exists_run_past {clock : Set ℚ} {now : ℚ} (hnow : now ∈ clock)
    (hfits : ∀ l : Limiter cfg, AskedAt lim now l →
      fits lim ((l.roll lim now).1.estimate key) 1) :
    ∃ log l, (limiter cfg lim).Run (fun _ r => r.now ∈ clock) (.start cfg) log l ∧
      ∃ w, lim.limit < spent log key w := by
  obtain ⟨log, l, hrun, -, hspent⟩ := exists_spent hnow hfits (⌊lim.limit⌋₊ + 1)
  refine ⟨log, l, hrun, startOf lim.windowMs now, ?_⟩
  rw [hspent]
  exact_mod_cast Nat.lt_floor_add_one lim.limit

end Beyond

/-- **When the limiter keeps its limit**, whatever the shape and the seed, in either mode and with
results rounded or not. What is admitted for a key in a window is within the limit, in every run
over any keys and costs at the readings of a clock, exactly when the limit is below one, so that no
check fits, or the limit is below `2 ^ 32` and no reading of the clock is past the end that is
computed for its window. -/
theorem never_over_admits_iff [Rounding] (cfg : Config) (lim : Limits) (clock : Set ℚ) :
    (∀ log l, (limiter cfg lim).Run (fun _ r => r.now ∈ clock) (.start cfg) log l →
      ∀ key w, (spent log key w : ℚ) ≤ lim.limit) ↔
      ∀ now ∈ clock, lim.limit < 2 ^ 32 ∧ (1 ≤ lim.limit → Inside lim.windowMs now) := by
  obtain ⟨key, i, hi⟩ := exists_slot cfg
  constructor
  · intro h now hnow
    have hpast : ¬ ∀ l : Limiter cfg, AskedAt lim now l →
        fits lim ((l.roll lim now).1.estimate key) 1 := by
      intro hfits
      obtain ⟨log, l, hrun, w, hlt⟩ := exists_run_past hnow hfits
      exact absurd (h log l hrun key w) (not_le.mpr hlt)
    constructor
    · by_contra hge
      exact hpast fun l _ => fits_one (not_lt.mp hge) hi _
    · intro hone
      by_contra hover
      refine hpast fun l hasked => ?_
      rw [hasked.roll_fst hover]
      exact fits_one_clear hone hi _
  · intro h log l hrun key w
    rcases lt_or_ge lim.limit 1 with hlt | hone
    · rw [spent_eq_zero_of_run hlt hrun]
      exact_mod_cast lim.limit_pos.le
    · rcases clock.eq_empty_or_nonempty with rfl | ⟨now, hnow⟩
      · obtain rfl : log = [] := by
          refine Machine.Run.invariant (I := fun _ log => log = []) rfl ?_ hrun
          exact fun _ _ _ _ _ _ hmem _ => hmem.elim
        exact_mod_cast lim.limit_pos.le
      · exact (bounded_of_run (h now hnow).1 (fun now hnow => (h now hnow).2 hone) hrun).within
          key w

/-! ### A run past the limit -/

theorem ceiling_pos : (0 : ℚ) < 4294967296 := by norm_num

/-- A limit of `2 ^ 32` a second. -/
def atCeiling : Limits where
  limit := 4294967296
  windowMs := 1000
  limit_pos := ceiling_pos
  windowMs_pos := second_pos

/-- One row of three columns, with the conservative update. -/
def oneRow : Config where
  width := 3
  depth := 1
  conservative := true
  seed := 1
  width_pos := three_columns_pos
  depth_pos := one_row_pos

/-- A check of the whole limit, and one of one unit in the same window. -/
def wholeThenOne : List Request := [⟨[97], 4294967296, 0⟩, ⟨[97], 1, 1⟩]

/-- The second is admitted as well: the counter stopped one short of the limit. -/
theorem not_never_over_admits : ¬ ∀ log l,
    (@limiter doubles oneRow atCeiling).Run (fun _ _ => True) (.start oneRow) log l →
      ∀ key w, (spent log key w : ℚ) ≤ atCeiling.limit := fun h =>
  absurd (h _ _ (Machine.run_of_isSome (l := wholeThenOne) (by decide +kernel) (by decide +kernel))
    [97] 0) (by decide +kernel)

end ThrottleKit.Sketch
