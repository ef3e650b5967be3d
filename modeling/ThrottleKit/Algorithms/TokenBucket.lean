import ThrottleKit.Core.Strategy
import ThrottleKit.Lib.Rounding

/-!
# The token bucket

The state is the tokens in the bucket and when they were last counted. A check first adds what has
dripped in since, up to the capacity, and takes its cost out if that much is there.

## Main results

* `TokenBucket.ttlTransparent` — the state of a bucket that computes as full decides nothing
* `TokenBucket.denialsLast` — a denial holds for its `retryAfterMs`
-/

namespace ThrottleKit.TokenBucket

open Rounding

/-- The options of `tokenBucket`, validated. -/
structure Config where
  capacity : ℚ
  refillPerSec : ℚ
  capacity_pos : 0 < capacity
  refillPerSec_pos : 0 < refillPerSec

/-- Tokens per ms. -/
def Config.refillPerMs [Rounding] (cfg : Config) : ℚ := fl (cfg.refillPerSec / 1000)

/-- Time to refill from empty. -/
def Config.ttlMs [Rounding] (cfg : Config) : ℚ := max 1 ⌈fl (cfg.capacity / cfg.refillPerMs)⌉

theorem Config.refillPerMs_pos (cfg : Config) : 0 < cfg.refillPerMs :=
  div_pos cfg.refillPerSec_pos second_pos

/-- The bucket of one key. -/
structure State where
  /-- Tokens available. -/
  tokens : ℚ
  /-- When `tokens` was last brought current. -/
  last : ℚ

/-- The tokens at `now`; a bucket without state is full. -/
def tokensAt [Rounding] (cfg : Config) (state : Option State) (now : ℚ) : ℚ :=
  let prevTokens := state.elim cfg.capacity (·.tokens)
  let last := state.elim now (·.last)
  let elapsed := max 0 (fl (now - last))
  min cfg.capacity (fl (prevTokens + fl (elapsed * cfg.refillPerMs)))

/-- `check(state, now, cost)`. -/
def check [Rounding] (cfg : Config) (state : Option State) (now cost : ℚ) :
    ApplyOutcome State Decision :=
  let tokens := tokensAt cfg state now
  if cost ≤ tokens then
    let newTokens := fl (tokens - cost)
    { state := some ⟨newTokens, now⟩
      result := ⟨true, cfg.capacity, max 0 ⌊newTokens⌋,
        fl (now + ⌈fl (fl (cfg.capacity - newTokens) / cfg.refillPerMs)⌉), 0⟩
      ttlMs := cfg.ttlMs
      persist := true }
  else
    { state := state
      result := ⟨false, cfg.capacity, max 0 ⌊tokens⌋,
        fl (now + ⌈fl (fl (cfg.capacity - tokens) / cfg.refillPerMs)⌉),
        ⌈fl (fl (cost - tokens) / cfg.refillPerMs)⌉⟩
      ttlMs := cfg.ttlMs
      persist := false }

/-- On exact rationals nothing is rounded. -/
theorem check_eq (cfg : Config) (state : Option State) (now cost : ℚ) :
    check cfg state now cost =
      if cost ≤ tokensAt cfg state now then
        { state := some ⟨tokensAt cfg state now - cost, now⟩
          result := ⟨true, cfg.capacity, max 0 ⌊tokensAt cfg state now - cost⌋,
            now + ⌈(cfg.capacity - (tokensAt cfg state now - cost)) / cfg.refillPerMs⌉, 0⟩
          ttlMs := cfg.ttlMs
          persist := true }
      else
        { state := state
          result := ⟨false, cfg.capacity, max 0 ⌊tokensAt cfg state now⌋,
            now + ⌈(cfg.capacity - tokensAt cfg state now) / cfg.refillPerMs⌉,
            ⌈(cost - tokensAt cfg state now) / cfg.refillPerMs⌉⟩
          ttlMs := cfg.ttlMs
          persist := false } :=
  rfl

/-- `tokenBucket(options)`. -/
def tokenBucket [Rounding] (cfg : Config) : Strategy State where
  name := "tokenBucket"
  limit := cfg.capacity
  ttlMs := cfg.ttlMs
  check := check cfg

/-- `peek(state, now)`. -/
def peek [Rounding] (cfg : Config) (state : Option State) (now : ℚ) : Decision :=
  let tokens := tokensAt cfg state now
  let allowed := decide (1 ≤ tokens)
  ⟨allowed, cfg.capacity, max 0 ⌊tokens⌋,
    fl (now + ⌈fl (fl (cfg.capacity - tokens) / cfg.refillPerMs)⌉),
    if allowed then 0 else ⌈fl (fl (1 - tokens) / cfg.refillPerMs)⌉⟩

/-- `forecast(state, now, cost)`. -/
def forecast [Rounding] (cfg : Config) (state : Option State) (now cost : ℚ) : Forecast :=
  let tokens := tokensAt cfg state now
  let isFull := decide (cfg.capacity ≤ tokens)
  ⟨⌊fl (tokens / cost)⌋,
    if isFull then now
      else fl (now + ⌈fl (fl (fl (⌊tokens⌋ + 1) - tokens) / cfg.refillPerMs)⌉),
    if isFull then now else fl (now + ⌈fl (fl (cfg.capacity - tokens) / cfg.refillPerMs)⌉)⟩

/-- `tokenBucket(options)` with its introspection. -/
def introspectable [Rounding] (cfg : Config) : Introspectable State :=
  { tokenBucket cfg with peek := peek cfg, forecast := forecast cfg }

theorem tokensAt_none_eq [Rounding] (cfg : Config) (now : ℚ) :
    tokensAt cfg none now = min cfg.capacity (fl cfg.capacity) := by
  simp [tokensAt, fl_zero]

@[simp] theorem tokensAt_none (cfg : Config) (now : ℚ) : tokensAt cfg none now = cfg.capacity :=
  (tokensAt_none_eq cfg now).trans (min_self _)

theorem tokensAt_some (cfg : Config) (s : State) (now : ℚ) :
    tokensAt cfg (some s) now
      = min cfg.capacity (s.tokens + max 0 (now - s.last) * cfg.refillPerMs) := rfl

/-- What a persisting check leaves: what the cost left of the tokens, counted at `now`. -/
theorem state_of_persist [Rounding] {cfg : Config} {state : Option State} {now cost : ℚ} {s : State}
    (hpersist : (check cfg state now cost).persist = true)
    (hstate : (check cfg state now cost).state = some s) :
    0 ≤ s.tokens ∧ s.last = now ∧ (check cfg state now cost).ttlMs = cfg.ttlMs := by
  unfold check at hpersist hstate ⊢
  dsimp only at hpersist hstate ⊢
  split at hpersist
  · rename_i hfits
    rw [if_pos hfits] at hstate ⊢
    obtain rfl := Option.some.inj hstate
    exact ⟨fl_nonneg (sub_nonneg.mpr hfits), rfl, rfl⟩
  · cases hpersist

/-- A bucket that has had its TTL to fill is full. -/
theorem tokensAt_of_ttl {cfg : Config} {s : State} {now : ℚ} (htokens : 0 ≤ s.tokens)
    (hdue : s.last + cfg.ttlMs ≤ now) : tokensAt cfg (some s) now = cfg.capacity := by
  have hend : cfg.capacity / cfg.refillPerMs ≤ now - s.last := by
    linarith [add_le_of_ttl (d := cfg.capacity / cfg.refillPerMs) hdue]
  have hdrip : cfg.capacity ≤ max 0 (now - s.last) * cfg.refillPerMs :=
    (div_le_iff₀ cfg.refillPerMs_pos).mp (hend.trans (le_max_right _ _))
  rw [tokensAt_some]
  exact min_eq_left (by linarith)

/-- A full bucket acts as one without state. -/
theorem seen_of_eq [Rounding] {cfg : Config} {s : State} {now : ℚ}
    (h : tokensAt cfg (some s) now = tokensAt cfg none now) (cost : ℚ) :
    (check cfg (some s) now cost).seen = (check cfg none now cost).seen := by
  unfold check
  dsimp only
  rw [h]
  split <;> rfl

theorem dueIsNone (cfg : Config) : DueIsNone (fun _ => True) (check cfg) := by
  intro t state cost s _ hpersist hstate t' _ hdue
  obtain ⟨htokens, hlast, httl⟩ := state_of_persist hpersist hstate
  rw [fl_exact, httl, ← hlast] at hdue
  exact seen_of_eq ((tokensAt_of_ttl htokens hdue).trans (tokensAt_none cfg t').symm)

/-- As computed, the bucket is full. -/
def Full [Rounding] (cfg : Config) (s : State) (now : ℚ) : Prop :=
  tokensAt cfg (some s) now = cfg.capacity

instance [Rounding] (cfg : Config) (s : State) (now : ℚ) : Decidable (Full cfg s now) :=
  inferInstanceAs (Decidable (_ = _))

theorem Config.refillPerMs_nonneg [Rounding] (cfg : Config) : 0 ≤ cfg.refillPerMs :=
  fl_nonneg (div_nonneg cfg.refillPerSec_pos.le (by norm_num))

theorem Full.mono [Rounding] {cfg : Config} {s : State} {t t' : ℚ} (hle : t ≤ t')
    (h : Full cfg s t) : Full cfg s t' := by
  have helapsed : max 0 (fl (t - s.last)) ≤ max 0 (fl (t' - s.last)) :=
    max_le_max le_rfl (Rounding.mono (sub_le_sub_right hle _))
  have hdrip := Rounding.mono (mul_le_mul_of_nonneg_right helapsed cfg.refillPerMs_nonneg)
  refine le_antisymm (min_le_left _ _) (h.symm.trans_le ?_)
  exact min_le_min le_rfl (Rounding.mono (add_le_add_right hdrip _))

theorem seen_of_full [Rounding] {cfg : Config} (hcapacity : Unrounded cfg.capacity) {s : State}
    {now : ℚ} (h : Full cfg s now) (cost : ℚ) :
    (check cfg (some s) now cost).seen = (check cfg none now cost).seen := by
  refine seen_of_eq (h.trans ?_) cost
  rw [tokensAt_none_eq, show fl cfg.capacity = cfg.capacity from hcapacity, min_self]

/-- **The state of a bucket that computes as full decides nothing.** -/
theorem ttlTransparent [Rounding] {cfg : Config} (hcapacity : Unrounded cfg.capacity) :
    TtlTransparent (LastsTo (Full cfg) (check cfg)) (check cfg) :=
  ttlTransparent_of_spent (fun hle h => h.mono hle) (seen_of_full hcapacity)

/-- On exact rationals a bucket that has had its TTL is full. -/
theorem lasts (cfg : Config) (state : Option State) (now cost : ℚ) :
    LastsTo (Full cfg) (check cfg) state now cost := by
  intro s hstate hpersist
  obtain ⟨htokens, hlast, httl⟩ := state_of_persist hpersist hstate
  exact tokensAt_of_ttl htokens (by rw [fl_exact, httl, hlast])

/-- A check is denied when its cost is more than the tokens. -/
theorem denied_iff [Rounding] {cfg : Config} {state : Option State} {now cost : ℚ} :
    (check cfg state now cost).result.allowed = false ↔ tokensAt cfg state now < cost := by
  unfold check
  dsimp only
  split <;> simp_all

/-- What drips in is the refill rate at most. -/
theorem tokensAt_le {cfg : Config} {state : Option State} {t t' : ℚ} (hle : t ≤ t') :
    tokensAt cfg state t' ≤ tokensAt cfg state t + (t' - t) * cfg.refillPerMs := by
  have hdrip : 0 ≤ (t' - t) * cfg.refillPerMs :=
    mul_nonneg (sub_nonneg.mpr hle) cfg.refillPerMs_pos.le
  cases state with
  | none => simpa using hdrip
  | some s =>
    have helapsed : max 0 (t' - s.last) ≤ max 0 (t - s.last) + (t' - t) := by
      rcases max_cases 0 (t' - s.last) with ⟨h, -⟩ | ⟨h, -⟩ <;>
        linarith [le_max_left 0 (t - s.last), le_max_right 0 (t - s.last)]
    have hmul := mul_le_mul_of_nonneg_right helapsed cfg.refillPerMs_pos.le
    rw [tokensAt_some, tokensAt_some]
    rcases min_cases cfg.capacity (s.tokens + max 0 (t - s.last) * cfg.refillPerMs) with
      ⟨h, -⟩ | ⟨h, -⟩
    · exact (min_le_left _ _).trans (by linarith)
    · exact (min_le_right _ _).trans (by linarith)

/-- A denied check keeps nothing. -/
theorem keeps [Rounding] (cfg : Config) (state : Option State) (now cost : ℚ)
    (h : (check cfg state now cost).result.allowed = false) :
    (check cfg state now cost).persist = false := by
  rw [denied_iff] at h
  rw [check, if_neg (not_le.mpr h)]

/-- **A denial lasts for its `retryAfterMs`**, at whole milliseconds. -/
theorem denialsLast (cfg : Config) : DenialsLast WholeMs (check cfg) where
  keeps := keeps cfg
  denies state t t' c c' ht ht' hle hcost h hretry := by
    rw [denied_iff] at h ⊢
    rw [check_eq, if_neg (not_le.mpr h)] at hretry
    have hlt := lt_add_of_wholeMs ht ht' hretry
    have hdrip := (lt_div_iff₀ cfg.refillPerMs_pos).mp (sub_lt_iff_lt_add'.mpr hlt)
    have htokens : tokensAt cfg state t' ≤ tokensAt cfg state t + (t' - t) * cfg.refillPerMs :=
      tokensAt_le hle
    linarith

end ThrottleKit.TokenBucket
