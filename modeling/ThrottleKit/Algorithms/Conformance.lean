import ThrottleKit.Algorithms.Gcra
import ThrottleKit.Algorithms.TokenBucket
import ThrottleKit.Lib.Lockstep

/-!
# Conformance under an arbitrary clock

A limiter that paces conforms when what it has admitted is never more than its burst and what its
rate yields over the time that has passed. Here the clock is arbitrary: checks come at any instants
in any order, as they do from callers whose clocks are skewed, and the time that has passed is the
latest instant less the earliest.

GCRA conforms. Its arrival time only moves forward, and by at least an emission interval for each
unit it admits, so what it has admitted fits between the earliest instant and the arrival time.

The token bucket does not. A check it admits at an earlier instant takes the count back to that
instant, and the time since then drips in again. It conforms as long as no check behind the count is
admitted.

## Main results

* `gcra_conforms` — GCRA conforms under every clock
* `tokenBucket_conforms` — the token bucket conforms where it is not set back
* `not_tokenBucket_conforms` — and not in general
-/

namespace ThrottleKit

/-- One check of a key. -/
structure Call where
  now : ℚ
  cost : ℚ

/-- The checks of one key, on a store that keeps every state it is given. -/
def served {S R : Type} (check : Option S → ℚ → ℚ → ApplyOutcome S R) :
    Lockstep.Service (Option S) Call R := fun state call =>
  let out := check state call.now call.cost
  (if out.persist then out.state else state, out.result)

/-- The cost a check admits. -/
def admittedCost {S : Type} (check : Option S → ℚ → ℚ → ApplyOutcome S Decision)
    (state : Option S) (call : Call) : ℚ :=
  if (check state call.now call.cost).result.allowed then call.cost else 0

/-- The cost the calls are admitted, from no state. -/
def admitted {S : Type} (check : Option S → ℚ → ℚ → ApplyOutcome S Decision)
    (calls : List Call) : ℚ :=
  Lockstep.tally (served check) (admittedCost check) none calls

/-! ### The time that has passed -/

/-- The earliest of `t` and the instants of the calls. -/
def earliest (t : ℚ) (calls : List Call) : ℚ := calls.foldr (fun call t => min call.now t) t

/-- The latest of `t` and the instants of the calls. -/
def latest (t : ℚ) (calls : List Call) : ℚ := calls.foldr (fun call t => max call.now t) t

/-- The latest instant of the calls less the earliest. -/
def clockSpan : List Call → ℚ
  | [] => 0
  | call :: calls => latest call.now calls - earliest call.now calls

theorem earliest_le (t : ℚ) (calls : List Call) :
    earliest t calls ≤ t ∧ ∀ call ∈ calls, earliest t calls ≤ call.now := by
  induction calls with
  | nil => exact ⟨le_rfl, by simp⟩
  | cons c cs ih =>
    refine ⟨(min_le_right _ _).trans ih.1, fun call hmem => ?_⟩
    rcases List.mem_cons.mp hmem with rfl | hmem
    · exact min_le_left _ _
    · exact (min_le_right _ _).trans (ih.2 call hmem)

theorem le_latest (t : ℚ) (calls : List Call) :
    t ≤ latest t calls ∧ ∀ call ∈ calls, call.now ≤ latest t calls := by
  induction calls with
  | nil => exact ⟨le_rfl, by simp⟩
  | cons c cs ih =>
    refine ⟨ih.1.trans (le_max_right _ _), fun call hmem => ?_⟩
    rcases List.mem_cons.mp hmem with rfl | hmem
    · exact le_max_left _ _
    · exact (ih.2 call hmem).trans (le_max_right _ _)

/-- The calls lie between two instants that are the span apart. -/
theorem exists_between (calls : List Call) : ∃ lo hi : ℚ, lo ≤ hi ∧ hi = lo + clockSpan calls ∧
    ∀ call ∈ calls, lo ≤ call.now ∧ call.now ≤ hi := by
  cases calls with
  | nil => exact ⟨0, 0, le_rfl, (zero_add 0).symm, by simp⟩
  | cons c cs =>
    obtain ⟨hle, hle'⟩ := earliest_le c.now cs
    obtain ⟨hge, hge'⟩ := le_latest c.now cs
    refine ⟨_, _, hle.trans hge, (add_sub_cancel _ _).symm, fun call hmem => ?_⟩
    rcases List.mem_cons.mp hmem with rfl | hmem
    · exact ⟨hle, hge⟩
    · exact ⟨hle' call hmem, hge' call hmem⟩

/-! ### GCRA -/

section Gcra

variable {cfg : Gcra.Config}

/-- What a check does to the arrival time. -/
theorem Gcra.served_cases (cfg : Gcra.Config) (state : Option ℚ) (call : Call) :
    (admittedCost (Gcra.check cfg) state call = 0 ∧
      (served (Gcra.check cfg) state call).1 = state) ∨
    (admittedCost (Gcra.check cfg) state call = call.cost ∧
      ∃ tat, (served (Gcra.check cfg) state call).1 = some tat ∧
        tat = max (state.getD call.now) call.now + cfg.T * call.cost ∧
        tat ≤ call.now + cfg.tau) := by
  simp only [admittedCost, served, Gcra.check_eq]
  split
  · exact .inl ⟨rfl, rfl⟩
  · rename_i hfits
    exact .inr ⟨rfl, _, rfl, rfl, by linarith⟩

/-- The units that still fit between the arrival time and what `hi` allows. -/
def Gcra.room (cfg : Gcra.Config) (lo hi : ℚ) (state : Option ℚ) : ℚ :=
  (hi + cfg.tau - state.getD lo) / cfg.T

theorem Gcra.room_step {lo hi : ℚ} {state : Option ℚ} {call : Call}
    (hlo : lo ≤ call.now) (hhi : call.now ≤ hi)
    (hroom : 0 ≤ Gcra.room cfg lo hi state) :
    admittedCost (Gcra.check cfg) state call
        + Gcra.room cfg lo hi (served (Gcra.check cfg) state call).1 ≤ Gcra.room cfg lo hi state ∧
      0 ≤ Gcra.room cfg lo hi (served (Gcra.check cfg) state call).1 := by
  rcases Gcra.served_cases cfg state call with ⟨hcost, hnext⟩ | ⟨hcost, tat, hnext, htat, hle⟩
  · rw [hcost, hnext, zero_add]
    exact ⟨le_rfl, hroom⟩
  · rw [hcost, hnext]
    have hpush : state.getD lo ≤ max (state.getD call.now) call.now := by
      cases state with
      | none => exact hlo.trans (le_max_right _ _)
      | some s => exact le_max_left _ _
    refine ⟨?_, div_nonneg (by rw [Option.getD_some]; linarith) cfg.T_pos.le⟩
    calc call.cost + (hi + cfg.tau - tat) / cfg.T
        = (cfg.T * call.cost + (hi + cfg.tau - tat)) / cfg.T := by
          rw [add_div, mul_div_cancel_left₀ _ cfg.T_pos.ne']
      _ ≤ (hi + cfg.tau - state.getD lo) / cfg.T :=
          div_le_div_of_nonneg_right (by linarith) cfg.T_pos.le

/-- **GCRA conforms under every clock.** -/
theorem gcra_conforms (cfg : Gcra.Config) (calls : List Call) :
    admitted (Gcra.check cfg) calls ≤ cfg.burst + clockSpan calls * cfg.limit / cfg.periodMs := by
  obtain ⟨lo, hi, hle, hspan, hmem⟩ := exists_between calls
  have hstart : Gcra.room cfg lo hi none
      = cfg.burst + clockSpan calls * cfg.limit / cfg.periodMs := by
    rw [Gcra.room, Option.getD_none, hspan, Gcra.Config.tau, Gcra.Config.T, Rounding.fl_exact,
      Rounding.fl_exact]
    have hlimit := cfg.limit_pos.ne'
    have hperiod := cfg.periodMs_pos.ne'
    field_simp
    ring
  have hnonneg : 0 ≤ Gcra.room cfg lo hi none := by
    have htau : 0 < cfg.tau := mul_pos cfg.T_pos (one_pos.trans_le cfg.one_le_burst)
    exact div_nonneg (by rw [Option.getD_none]; linarith) cfg.T_pos.le
  rw [← hstart]
  refine Lockstep.tally_le (I := fun state => 0 ≤ Gcra.room cfg lo hi state)
    (Gcra.room cfg lo hi) (fun _ h => h) ?_ calls hnonneg (Lockstep.allMet_of_forall calls hmem)
  rintro state call hroom ⟨hlo, hhi⟩
  exact Gcra.room_step hlo hhi hroom

end Gcra

/-! ### The token bucket -/

section TokenBucket

variable {cfg : TokenBucket.Config}

/-- The tokens a bucket was left with; a bucket without state is full. -/
def TokenBucket.heldTokens (cfg : TokenBucket.Config) (state : Option TokenBucket.State) : ℚ :=
  state.elim cfg.capacity (·.tokens)

/-- The tokens a check that is admitted lets drip in. -/
def TokenBucket.refilled (cfg : TokenBucket.Config) (state : Option TokenBucket.State)
    (call : Call) : ℚ :=
  if (TokenBucket.check cfg state call.now call.cost).result.allowed then
    TokenBucket.tokensAt cfg state call.now - TokenBucket.heldTokens cfg state
  else 0

/-- The tokens the calls let drip in, from no state. -/
def TokenBucket.totalRefilled (cfg : TokenBucket.Config) (calls : List Call) : ℚ :=
  Lockstep.tally (served (TokenBucket.check cfg)) (TokenBucket.refilled cfg) none calls

/-- The bucket conforms on these calls: no instant drips in twice, so that what is admitted is the
capacity and what drips in at most. -/
def TokenBucket.Conforms (cfg : TokenBucket.Config) (calls : List Call) : Prop :=
  TokenBucket.totalRefilled cfg calls ≤ clockSpan calls * cfg.refillPerSec / 1000 ∧
    admitted (TokenBucket.check cfg) calls
      ≤ cfg.capacity + clockSpan calls * cfg.refillPerSec / 1000

/-- The check does not set the bucket back: it is not behind the count, or costs more tokens than
there are. -/
def TokenBucket.NotSetBack (state : Option TokenBucket.State) (call : Call) : Prop :=
  ∀ s ∈ state, s.last ≤ call.now ∨ s.tokens < call.cost

instance (state : Option TokenBucket.State) (call : Call) :
    Decidable (TokenBucket.NotSetBack state call) :=
  inferInstanceAs (Decidable (∀ s ∈ state, s.last ≤ call.now ∨ s.tokens < call.cost))

/-- What a check does to the bucket. -/
theorem TokenBucket.served_cases (cfg : TokenBucket.Config) (state : Option TokenBucket.State)
    (call : Call) :
    (admittedCost (TokenBucket.check cfg) state call = 0 ∧ TokenBucket.refilled cfg state call = 0 ∧
      (served (TokenBucket.check cfg) state call).1 = state) ∨
    (admittedCost (TokenBucket.check cfg) state call = call.cost ∧
      TokenBucket.refilled cfg state call
        = TokenBucket.tokensAt cfg state call.now - TokenBucket.heldTokens cfg state ∧
      call.cost ≤ TokenBucket.tokensAt cfg state call.now ∧
      (served (TokenBucket.check cfg) state call).1
        = some ⟨TokenBucket.tokensAt cfg state call.now - call.cost, call.now⟩) := by
  unfold admittedCost TokenBucket.refilled served TokenBucket.check
  dsimp only
  by_cases hfits : call.cost ≤ TokenBucket.tokensAt cfg state call.now
  · rw [if_pos hfits]
    exact .inr ⟨rfl, rfl, hfits, rfl⟩
  · rw [if_neg hfits]
    exact .inl ⟨rfl, rfl, rfl⟩

/-- Where the count is not set back, what drips in is the time since the count at most. -/
theorem TokenBucket.tokensAt_le_held {lo : ℚ} {state : Option TokenBucket.State} {call : Call}
    (hlo : lo ≤ call.now) (hahead : TokenBucket.NotSetBack state call)
    (hfits : call.cost ≤ TokenBucket.tokensAt cfg state call.now) :
    TokenBucket.tokensAt cfg state call.now ≤ TokenBucket.heldTokens cfg state
      + (call.now - state.elim lo (·.last)) * cfg.refillPerMs := by
  have hrate := cfg.refillPerMs_pos.le
  cases state with
  | none =>
    rw [TokenBucket.tokensAt_none]
    exact le_add_of_nonneg_right (mul_nonneg (sub_nonneg.mpr hlo) hrate)
  | some s =>
    have hdrip : TokenBucket.tokensAt cfg (some s) call.now
        ≤ s.tokens + max 0 (call.now - s.last) * cfg.refillPerMs := min_le_right _ _
    rcases hahead s rfl with hlast | htokens
    · rwa [max_eq_right (sub_nonneg.mpr hlast)] at hdrip
    · show TokenBucket.tokensAt cfg (some s) call.now
        ≤ s.tokens + (call.now - s.last) * cfg.refillPerMs
      rcases le_total s.last call.now with hlast | hlast
      · rwa [max_eq_right (sub_nonneg.mpr hlast)] at hdrip
      · rw [max_eq_left (sub_nonpos.mpr hlast), zero_mul, add_zero] at hdrip
        linarith

/-- The instant of the count lies before `hi`, and there are no fewer than no tokens. -/
def TokenBucket.CountedBefore (hi : ℚ) (state : Option TokenBucket.State) : Prop :=
  ∀ s ∈ state, s.last ≤ hi ∧ 0 ≤ s.tokens

/-- A check takes what it lets drip in out of the time that is left until `hi`, and what it admits
out of that and the tokens. -/
theorem TokenBucket.served_step {lo hi : ℚ} {state : Option TokenBucket.State} {call : Call}
    (hlo : lo ≤ call.now) (hhi : call.now ≤ hi) (hahead : TokenBucket.NotSetBack state call)
    (hcount : TokenBucket.CountedBefore hi state) :
    TokenBucket.refilled cfg state call + (hi - ((served (TokenBucket.check cfg) state call).1.elim
        lo (·.last))) * cfg.refillPerMs ≤ (hi - state.elim lo (·.last)) * cfg.refillPerMs ∧
      admittedCost (TokenBucket.check cfg) state call
        + TokenBucket.heldTokens cfg (served (TokenBucket.check cfg) state call).1
        = TokenBucket.heldTokens cfg state + TokenBucket.refilled cfg state call ∧
      TokenBucket.CountedBefore hi (served (TokenBucket.check cfg) state call).1 := by
  rcases TokenBucket.served_cases cfg state call with
    ⟨hcost, hrefill, hnext⟩ | ⟨hcost, hrefill, hfits, hnext⟩
  · rw [hcost, hrefill, hnext]
    exact ⟨(zero_add _).le, by rw [zero_add, add_zero], hcount⟩
  · have hdrip := TokenBucket.tokensAt_le_held hlo hahead hfits
    rw [hcost, hrefill, hnext]
    refine ⟨?_, ?_, ?_⟩
    · rw [Option.elim_some]
      linarith
    · show call.cost + (TokenBucket.tokensAt cfg state call.now - call.cost) = _
      ring
    · rintro s hs
      obtain rfl := Option.some.inj hs
      exact ⟨hhi, sub_nonneg.mpr hfits⟩

/-- **The token bucket conforms where it is not set back.** -/
theorem tokenBucket_conforms (cfg : TokenBucket.Config) (calls : List Call)
    (h : Lockstep.AllMet (served (TokenBucket.check cfg)) TokenBucket.NotSetBack none calls) :
    TokenBucket.Conforms cfg calls := by
  obtain ⟨lo, hi, hle, hspan, hmem⟩ := exists_between calls
  have hspan' : (hi - lo) * cfg.refillPerMs = clockSpan calls * cfg.refillPerSec / 1000 := by
    rw [hspan, TokenBucket.Config.refillPerMs, Rounding.fl_exact]
    ring
  have hmet := h.and_forall hmem
  have hpot : ∀ state, TokenBucket.CountedBefore hi state →
      0 ≤ (hi - state.elim lo (·.last)) * cfg.refillPerMs := by
    rintro (_ | s) hcount
    · exact mul_nonneg (sub_nonneg.mpr hle) cfg.refillPerMs_pos.le
    · exact mul_nonneg (sub_nonneg.mpr (hcount s rfl).1) cfg.refillPerMs_pos.le
  have hheld : ∀ state, TokenBucket.CountedBefore hi state →
      0 ≤ TokenBucket.heldTokens cfg state := by
    rintro (_ | s) hcount
    · exact cfg.capacity_pos.le
    · exact (hcount s rfl).2
  have hstart : TokenBucket.CountedBefore hi none := fun _ hs => absurd hs (by simp)
  constructor
  · rw [← hspan']
    refine Lockstep.tally_le (fun state => (hi - state.elim lo (·.last)) * cfg.refillPerMs)
      hpot ?_ calls hstart hmet
    rintro state call hcount ⟨⟨hlo, hhi⟩, hahead⟩
    obtain ⟨hrefill, -, hnext⟩ := TokenBucket.served_step hlo hhi hahead hcount
    exact ⟨hrefill, hnext⟩
  · rw [← hspan']
    refine Lockstep.tally_le (fun state => TokenBucket.heldTokens cfg state
      + (hi - state.elim lo (·.last)) * cfg.refillPerMs)
      (fun state hcount => add_nonneg (hheld state hcount) (hpot state hcount)) ?_ calls hstart hmet
    rintro state call hcount ⟨⟨hlo, hhi⟩, hahead⟩
    obtain ⟨hrefill, hcost, hnext⟩ := TokenBucket.served_step hlo hhi hahead hcount
    refine ⟨?_, hnext⟩
    linarith

/-- Two tokens, that drip in within a second. -/
def TokenBucket.pairPerSecond : TokenBucket.Config where
  capacity := 2
  refillPerSec := 2
  capacity_pos := pair_pos
  refillPerSec_pos := pair_pos

/-- A check behind the count that is denied leaves the bucket as it was. -/
theorem pairPerSecond_conforms :
    TokenBucket.Conforms TokenBucket.pairPerSecond [⟨1000, 2⟩, ⟨0, 1⟩, ⟨1500, 1⟩] :=
  tokenBucket_conforms TokenBucket.pairPerSecond [⟨1000, 2⟩, ⟨0, 1⟩, ⟨1500, 1⟩]
    (by decide +kernel)

instance (cfg : TokenBucket.Config) (calls : List Call) :
    Decidable (TokenBucket.Conforms cfg calls) :=
  inferInstanceAs (Decidable (_ ∧ _))

/-- Within one second that is gone through three times, six tokens are admitted where there are two
and two more drip in. -/
theorem not_tokenBucket_conforms :
    ¬ ∀ (cfg : TokenBucket.Config) (calls : List Call), TokenBucket.Conforms cfg calls := fun h =>
  absurd (h TokenBucket.pairPerSecond [⟨1000, 1⟩, ⟨0, 1⟩, ⟨1000, 1⟩, ⟨0, 1⟩, ⟨1000, 2⟩])
    (by decide +kernel)

end TokenBucket

end ThrottleKit
