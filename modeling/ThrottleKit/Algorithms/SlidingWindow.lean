import ThrottleKit.Core.Strategy
import ThrottleKit.Lib.Rounding

/-!
# The sliding window counter

The window is cut into `S` buckets of one width, numbered by *tick* from the epoch. The state is a
ring of `S + 1` slots; a slot belongs to the tick that last wrote it, and counts for that tick only.
The estimate is the sum over the last `S` ticks and the part of the one before that is still in the
window.

A slot is found by the remainder of its tick, which for a negative tick is negative; the ring is a
function on all integers, so such a slot is one of its own. No check reads it: negative ticks count
as zero.

## Main results

* `SlidingWindow.countAt_bumped` — what a written ring counts for a tick
* `SlidingWindow.ttlTransparent` — a ring whose every tick has left the window decides nothing
-/

namespace ThrottleKit.SlidingWindow

open Rounding

/-- The options of `slidingWindow`, validated. -/
structure Config where
  limit : ℚ
  windowMs : ℚ
  /-- `S`, the number of sub-buckets. -/
  buckets : ℕ
  limit_pos : 0 < limit
  windowMs_pos : 0 < windowMs
  one_le_buckets : 1 ≤ buckets

/-- Sub-bucket width. -/
def Config.w [Rounding] (cfg : Config) : ℚ := fl (cfg.windowMs / cfg.buckets)

/-- Slots of the ring. -/
def Config.slots (cfg : Config) : ℤ := cfg.buckets + 1

/-- How long a written ring is kept. -/
def Config.ttlMs [Rounding] (cfg : Config) : ℚ := ⌈fl (cfg.windowMs + cfg.w)⌉

theorem Config.w_pos (cfg : Config) : 0 < cfg.w :=
  div_pos cfg.windowMs_pos (by exact_mod_cast cfg.one_le_buckets)

theorem Config.windowMs_eq (cfg : Config) : cfg.windowMs = cfg.buckets * cfg.w := by
  have hS : (cfg.buckets : ℚ) ≠ 0 :=
    by exact_mod_cast (Nat.lt_of_lt_of_le one_pos cfg.one_le_buckets).ne'
  rw [Config.w, fl_exact, mul_div_cancel₀ _ hS]

/-- The ring. -/
structure State where
  /-- The tick owning each slot, `-1` when empty. -/
  i : ℤ → ℤ
  /-- The count at each slot. -/
  n : ℤ → ℚ

/-- A ring with every slot empty. -/
def State.empty : State := ⟨fun _ => -1, fun _ => 0⟩

/-- The tick that holds `now`. -/
def tick [Rounding] (cfg : Config) (now : ℚ) : ℤ := ⌊fl (now / cfg.w)⌋

/-- `get(idx)`: the count of a tick. -/
def countAt (cfg : Config) (ring : State) (idx : ℤ) : ℚ :=
  if idx < 0 then 0
  else
    let p := idx.tmod cfg.slots
    if ring.i p = idx then ring.n p else 0

/-- The part of the oldest tick that is still in the window. -/
def weight [Rounding] (cfg : Config) (now : ℚ) : ℚ :=
  let elapsed := max 0 (fl (now - fl (tick cfg now * cfg.w)))
  min 1 (max 0 (fl (fl (cfg.w - elapsed) / cfg.w)))

/-- The count of the last `S` ticks. -/
def full [Rounding] (cfg : Config) (ring : State) (now : ℚ) : ℚ :=
  sumOf ((List.range cfg.buckets).map fun (k : ℕ) =>
    countAt cfg ring (tick cfg now - cfg.buckets + 1 + k))

/-- The count of the tick before those. -/
def oldest [Rounding] (cfg : Config) (ring : State) (now : ℚ) : ℚ :=
  countAt cfg ring (tick cfg now - cfg.buckets)

/-- The ring with `cost` added to the slot of tick `c`. -/
def bumped [Rounding] (cfg : Config) (ring : State) (c : ℤ) (cost : ℚ) : State :=
  let p := c.tmod cfg.slots
  let cur := if ring.i p = c then ring.n p else 0
  ⟨Function.update ring.i p c, Function.update ring.n p (fl (cur + cost))⟩

/-- The result of a check of `cost`, by what the ring counts. -/
def decideBy [Rounding] (cfg : Config) (full oldest now cost : ℚ) : Decision :=
  let c := tick cfg now
  let estimate := fl (full + fl (oldest * weight cfg now))
  let projected := fl (estimate + cost)
  let resetAt := ⌈fl (fl ((c + 1) * cfg.w) + cfg.windowMs)⌉
  if projected ≤ cfg.limit then ⟨true, cfg.limit, max 0 ⌊fl (cfg.limit - projected)⌋, resetAt, 0⟩
  else
    let D := fl (projected - cfg.limit)
    let retryAfterMs := if 0 < oldest ∧ D ≤ fl (oldest * weight cfg now)
      then ⌈fl (fl (D * cfg.w) / oldest)⌉
      else ⌈fl (fl ((c + 1) * cfg.w) - now)⌉
    ⟨false, cfg.limit, max 0 ⌊fl (cfg.limit - estimate)⌋, resetAt, max 1 retryAfterMs⟩

theorem decideBy_limit [Rounding] {cfg : Config} {full oldest now cost : ℚ} :
    (decideBy cfg full oldest now cost).limit = cfg.limit := by
  rw [decideBy]
  dsimp only
  split <;> rfl

/-- `check(state, now, cost)`. -/
def check [Rounding] (cfg : Config) (state : Option State) (now cost : ℚ) :
    ApplyOutcome State Decision :=
  let ring := state.getD .empty
  let d := decideBy cfg (full cfg ring now) (oldest cfg ring now) now cost
  if d.allowed then
    { state := some (bumped cfg ring (tick cfg now) cost)
      result := d
      ttlMs := cfg.ttlMs
      persist := true }
  else
    { state := state
      result := d
      ttlMs := cfg.ttlMs
      persist := false }

/-- `slidingWindow(options)`. -/
def slidingWindow [Rounding] (cfg : Config) : Strategy State where
  name := "slidingWindow"
  limit := cfg.limit
  ttlMs := cfg.ttlMs
  check := check cfg

/-- What the ring counts of the trailing window at `now`. -/
def estimate [Rounding] (cfg : Config) (state : Option State) (now : ℚ) : ℚ :=
  fl (full cfg (state.getD .empty) now
    + fl (oldest cfg (state.getD .empty) now * weight cfg now))

/-- `peek(state, now)`. -/
def peek [Rounding] (cfg : Config) (state : Option State) (now : ℚ) : Decision :=
  let c := tick cfg now
  let oldest := oldest cfg (state.getD .empty) now
  let estimate := estimate cfg state now
  let resetAt := ⌈fl (fl ((c + 1) * cfg.w) + cfg.windowMs)⌉
  let remaining := max 0 ⌊fl (cfg.limit - estimate)⌋
  if fl (estimate + 1) ≤ cfg.limit then ⟨true, cfg.limit, remaining, resetAt, 0⟩
  else
    let D := fl (fl (estimate + 1) - cfg.limit)
    let retryAfterMs := if 0 < oldest ∧ D ≤ fl (oldest * weight cfg now)
      then ⌈fl (fl (D * cfg.w) / oldest)⌉
      else ⌈fl (fl ((c + 1) * cfg.w) - now)⌉
    ⟨false, cfg.limit, remaining, resetAt, max 1 retryAfterMs⟩

/-- `forecast(state, now, cost)`. -/
def forecast [Rounding] (cfg : Config) (state : Option State) (now cost : ℚ) : Forecast :=
  let c := tick cfg now
  let available : ℤ := max 0 ⌊fl (cfg.limit - estimate cfg state now)⌋
  ⟨⌊fl (available / cost)⌋, ⌈fl ((c + 1) * cfg.w)⌉,
    ⌈fl (fl ((c + 1) * cfg.w) + cfg.windowMs)⌉⟩

/-- `slidingWindow(options)` with its introspection. -/
def introspectable [Rounding] (cfg : Config) : Introspectable State :=
  { slidingWindow cfg with peek := peek cfg, forecast := forecast cfg }

/-! ### What a ring counts -/

section Ring

variable {cfg : Config}

@[simp] theorem countAt_of_neg {ring : State} {idx : ℤ} (h : idx < 0) : countAt cfg ring idx = 0 :=
  if_pos h

@[simp] theorem countAt_empty (idx : ℤ) : countAt cfg .empty idx = 0 := by
  unfold countAt State.empty
  split
  · rfl
  · exact ite_self 0

/-- What a written ring counts for a tick: the cost is added to its own, and the ticks that share
its slot are gone. -/
theorem countAt_bumped [Rounding] (ring : State) (c : ℤ) (cost : ℚ) {idx : ℤ} (hidx : 0 ≤ idx) :
    countAt cfg (bumped cfg ring c cost) idx =
      if idx.tmod cfg.slots = c.tmod cfg.slots then
        if idx = c then fl (countAt cfg ring c + cost) else 0
      else countAt cfg ring idx := by
  unfold countAt bumped
  rw [if_neg (not_lt.mpr hidx)]
  dsimp only
  by_cases hp : idx.tmod cfg.slots = c.tmod cfg.slots
  · rw [if_pos hp, hp]
    simp only [Function.update_self]
    by_cases hc : idx = c
    · subst hc
      rw [if_pos rfl, if_pos rfl, if_neg (not_lt.mpr hidx)]
    · rw [if_neg hc, if_neg (Ne.symm hc)]
  · rw [if_neg hp, if_neg (not_lt.mpr hidx)]
    simp only [Function.update_of_ne hp]

/-- No slot belongs to a tick past that of `t`, but for slots no check reads. -/
def NoneAfter [Rounding] (cfg : Config) (t : ℚ) (ring : State) : Prop :=
  ∀ p, ring.i p < 0 ∨ ring.i p ≤ tick cfg t

theorem Config.w_nonneg [Rounding] (cfg : Config) : 0 ≤ cfg.w :=
  fl_nonneg (div_nonneg cfg.windowMs_pos.le (Nat.cast_nonneg _))

theorem tick_mono [Rounding] {t t' : ℚ} (h : t ≤ t') : tick cfg t ≤ tick cfg t' :=
  Int.floor_le_floor (mono (div_le_div_of_nonneg_right h cfg.w_nonneg))

theorem noneAfter_empty [Rounding] (t : ℚ) : NoneAfter cfg t .empty := fun _ => .inl neg_one_lt_zero

theorem NoneAfter.bumped [Rounding] {t : ℚ} {ring : State} (h : NoneAfter cfg t ring) (cost : ℚ) :
    NoneAfter cfg t (bumped cfg ring (tick cfg t) cost) := by
  intro p
  show Function.update ring.i _ _ p < 0 ∨ Function.update ring.i _ _ p ≤ _
  rw [Function.update_apply]
  split
  · exact .inr le_rfl
  · exact h p

/-- A ring counts nothing for a tick past all of its slots. -/
theorem NoneAfter.countAt_eq_zero [Rounding] {t : ℚ} {ring : State} (h : NoneAfter cfg t ring)
    {idx : ℤ}
    (hidx : tick cfg t < idx) : countAt cfg ring idx = 0 := by
  unfold countAt
  split
  · rfl
  · rename_i hnonneg
    refine if_neg fun heq => ?_
    have hslot := h (idx.tmod cfg.slots)
    omega

/-- When a ring written at `t` expires, its last tick has left the window. -/
theorem tick_lt_of_ttl {t t' : ℚ} (h : t + cfg.ttlMs ≤ t') :
    tick cfg t < tick cfg t' - cfg.buckets := by
  have hend : t + (cfg.buckets + 1) * cfg.w ≤ t' := by
    have hceil : cfg.windowMs + cfg.w ≤ cfg.ttlMs := Int.le_ceil _
    rw [cfg.windowMs_eq] at hceil
    linarith
  have hdiv : t / cfg.w + (cfg.buckets + 1 : ℕ) ≤ t' / cfg.w := by
    rw [le_div_iff₀ cfg.w_pos, add_mul, div_mul_cancel₀ _ cfg.w_pos.ne']
    push_cast
    exact hend
  have hfloor : tick cfg t + (cfg.buckets + 1 : ℕ) ≤ tick cfg t' := by
    rw [tick, fl_exact, ← Int.floor_add_natCast]
    exact Int.floor_le_floor hdiv
  push_cast at hfloor
  omega

end Ring

/-! ### Expired rings -/

/-- Two rings that count the same for the ticks in the window of `t`, and for the later ones. -/
def SameFrom [Rounding] (cfg : Config) (t : ℚ) (state state' : Option State) : Prop :=
  ∀ idx, tick cfg t - cfg.buckets ≤ idx →
    countAt cfg (state.getD .empty) idx = countAt cfg (state'.getD .empty) idx

section SameFrom

variable [Rounding] {cfg : Config} {t : ℚ} {state state' : Option State}

theorem SameFrom.mono {t' : ℚ} (hle : t ≤ t') (h : SameFrom cfg t state state') :
    SameFrom cfg t' state state' := fun idx hidx =>
  h idx (le_trans (sub_le_sub_right (tick_mono hle) _) hidx)

theorem SameFrom.full_eq (h : SameFrom cfg t state state') :
    full cfg (state.getD .empty) t = full cfg (state'.getD .empty) t := by
  unfold full
  congr 1
  refine List.map_congr_left fun k _ => h _ ?_
  omega

theorem SameFrom.oldest_eq (h : SameFrom cfg t state state') :
    oldest cfg (state.getD .empty) t = oldest cfg (state'.getD .empty) t := h _ le_rfl

theorem SameFrom.bumped (h : SameFrom cfg t state state') (cost : ℚ) :
    SameFrom cfg t (some (bumped cfg (state.getD .empty) (tick cfg t) cost))
      (some (bumped cfg (state'.getD .empty) (tick cfg t) cost)) := by
  intro idx hidx
  rcases lt_or_ge idx 0 with hneg | hnonneg
  · rw [countAt_of_neg hneg, countAt_of_neg hneg]
  · show countAt cfg (SlidingWindow.bumped cfg _ _ cost) idx
      = countAt cfg (SlidingWindow.bumped cfg _ _ cost) idx
    rw [countAt_bumped _ _ _ hnonneg, countAt_bumped _ _ _ hnonneg, h idx hidx, h (tick cfg t)
      (by omega)]

end SameFrom

/-- A check that is admitted leaves a ring whose every tick has left the window by the instant it is
due. -/
def Lasts [Rounding] (cfg : Config) (state : Option State) (now cost : ℚ) : Prop :=
  (check cfg state now cost).persist = true →
    tick cfg now < tick cfg (fl (now + cfg.ttlMs)) - cfg.buckets

instance [Rounding] (cfg : Config) (state : Option State) (now cost : ℚ) :
    Decidable (Lasts cfg state now cost) :=
  inferInstanceAs (Decidable (_ → _))

/-- Expired rings are as good as none. -/
theorem forgettable [Rounding] (cfg : Config) : Expiry.Forgettable (expiring (check cfg))
    (Lasts cfg) (fun t state => ∀ ring ∈ state, NoneAfter cfg t ring) (SameFrom cfg) where
  good_none := by simp
  good_mono hle h ring hring p := (h ring hring p).imp_right fun hp => hp.trans (tick_mono hle)
  good_write {t state cost w} hgood hw ring hring := by
    obtain ⟨⟨s, due⟩, rfl, rfl⟩ := Option.map_eq_some_iff.mp hring
    obtain ⟨hpersist, hstate, -⟩ := eq_some_of_expiring hw
    unfold check at hpersist hstate
    dsimp only at hpersist hstate
    split at hpersist
    · rename_i hallowed
      rw [if_pos hallowed] at hstate
      obtain rfl := Option.some.inj hstate
      refine NoneAfter.bumped ?_ cost
      cases state with
      | none => exact noneAfter_empty t
      | some ring => exact hgood ring rfl
    · cases hpersist
  same_none _ _ _ := rfl
  same_mono := SameFrom.mono
  answer_eq {t state state'} cost _ _ h := by
    unfold expiring check
    dsimp only
    rw [h.full_eq, h.oldest_eq]
    split <;> rfl
  write_same {t state state'} cost _ _ h := by
    unfold expiring check
    dsimp only
    rw [h.full_eq, h.oldest_eq]
    split
    · exact ⟨h.bumped cost, rfl⟩
    · trivial
  due_none {t state cost ring due} hgood hlasts hw t' _ hdue := by
    obtain ⟨hpersist, hstate, rfl⟩ := eq_some_of_expiring hw
    have hticks := hlasts hpersist
    unfold check at hpersist hstate hdue
    dsimp only at hpersist hstate hdue
    split at hpersist
    · rename_i hallowed
      rw [if_pos hallowed] at hstate hdue
      obtain rfl := Option.some.inj hstate
      have hring : NoneAfter cfg t (state.getD .empty) := by
        cases state with
        | none => exact noneAfter_empty t
        | some ring => exact hgood ring rfl
      have hleft : tick cfg t < tick cfg t' - cfg.buckets :=
        hticks.trans_le (sub_le_sub_right (tick_mono hdue) _)
      intro idx hidx
      rw [Option.getD_some, Option.getD_none, countAt_empty]
      exact (hring.bumped cost).countAt_eq_zero (hleft.trans_le hidx)
    · cases hpersist

/-- **A ring whose every tick has left the window decides nothing.** -/
theorem ttlTransparent [Rounding] (cfg : Config) : TtlTransparent (Lasts cfg) (check cfg) :=
  fun _ hsorted hlast => (forgettable cfg).answers_eq hsorted hlast

/-- On exact rationals every tick has left the window by then. -/
theorem lasts (cfg : Config) (state : Option State) (now cost : ℚ) : Lasts cfg state now cost :=
  fun _ => tick_lt_of_ttl le_rfl

end ThrottleKit.SlidingWindow
