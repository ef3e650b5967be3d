import ThrottleKit.Algorithms.ScriptForms
import ThrottleKit.Multi.Binding
import ThrottleKit.Multi.Fused

/-!
# The dimensions of a composite, in process and in the script

The script has a branch for each of three strategies, which do in process what they do there: they
find the same state, and leave the same one. What they say is alike, but for the fixed window, whose
branch does not round what is left, nor the end of the window.

A strategy is meant to find states of its own. What it makes of a state that another one left is a
parameter here, since that is a computation on fields which are not there.

## Main definitions

* `Cell`, `Kind.check` — the states in process, and the strategies
* `Kind.Stale` — a value that acts as none

## Main results

* `evalDim_eq` — a branch of the script beside its strategy
* `sameAt_of_stale` — the states that act as none
-/

namespace ThrottleKit.Multi

open Redis (Whole Fits)
open Rounding

/-- The state of a dimension in process. -/
inductive Cell
  | tat (t : ℚ)
  | bucket (state : TokenBucket.State)
  | window (state : FixedWindow.State)

/-- The value of the key that holds the state. -/
def Cell.value : Cell → Value
  | .tat t => .str t
  | .bucket st => .hash ⟨some st.tokens, some st.last, none, none⟩
  | .window st => .hash ⟨none, none, some st.start, some st.count⟩

/-- What a strategy makes of a state that another one left. -/
abbrev Foreign := Kind → Cell → ℚ → ℚ → ApplyOutcome Cell Decision

/-- An outcome with its state among those of all strategies. -/
def inCell {S : Type} (cell : S → Cell) (out : ApplyOutcome S Decision) :
    ApplyOutcome Cell Decision :=
  ⟨out.state.map cell, out.result, out.ttlMs, out.persist⟩

/-- `dim.strategy.check(state, now, cost)`. -/
def Kind.check [Rounding] (foreign : Foreign) (kind : Kind) (state : Option Cell) (now cost : ℚ) :
    ApplyOutcome Cell Decision :=
  match kind with
  | .gcra cfg =>
    match state with
    | none => inCell .tat ((Gcra.gcra cfg).check none now cost)
    | some (.tat t) => inCell .tat ((Gcra.gcra cfg).check (some t) now cost)
    | some cell => foreign (.gcra cfg) cell now cost
  | .tokenBucket cfg =>
    match state with
    | none => inCell .bucket ((TokenBucket.tokenBucket cfg).check none now cost)
    | some (.bucket st) => inCell .bucket ((TokenBucket.tokenBucket cfg).check (some st) now cost)
    | some cell => foreign (.tokenBucket cfg) cell now cost
  | .fixedWindow cfg =>
    match state with
    | none => inCell .window ((FixedWindow.fixedWindow cfg).check none now cost)
    | some (.window st) => inCell .window ((FixedWindow.fixedWindow cfg).check (some st) now cost)
    | some cell => foreign (.fixedWindow cfg) cell now cost

/-- The state is one the strategy leaves. -/
def Kind.Leaves : Kind → Cell → Prop
  | .gcra _, .tat _ => True
  | .tokenBucket _, .bucket _ => True
  | .fixedWindow _, .window _ => True
  | _, _ => False

/-- The value acts as none: an arrival time that has passed, a bucket that is as full by now as a
new one, the count of another window. -/
def Kind.Stale [Rounding] : Kind → Value → ℚ → Prop
  | .gcra _, .str tat, now => tat ≤ now
  | .tokenBucket cfg, .hash h, now =>
    refilledTokens cfg h.t h.l now = refilledTokens cfg none none now
  | .fixedWindow cfg, .hash h, now => h.s ≠ some (startOf cfg.windowMs now)
  | _, _, _ => False

instance Kind.Stale.decidable [Rounding] :
    (kind : Kind) → (v : Value) → (now : ℚ) → Decidable (kind.Stale v now)
  | .gcra _, .str _, _ => inferInstanceAs (Decidable (_ ≤ _))
  | .gcra _, .hash _, _ => isFalse id
  | .tokenBucket _, .str _, _ => isFalse id
  | .tokenBucket _, .hash _, _ => inferInstanceAs (Decidable (_ = _))
  | .fixedWindow _, .str _, _ => isFalse id
  | .fixedWindow _, .hash _, _ => inferInstanceAs (Decidable (_ ≠ _))

/-- The end of the window is rounded up in process. -/
def Kind.endOf : Kind → ℚ → ℚ
  | .fixedWindow _, reset => ⌈reset⌉
  | _, reset => reset

variable [Rounding] {foreign : Foreign} {kind : Kind} {now cost : ℚ}

/-! ### States that act as none -/

omit [Rounding] in
theorem sameAt_inCell {S : Type} {cell : S → Cell}
    {check : Option S → ℚ → ℚ → ApplyOutcome S Decision}
    {check' : Option Cell → ℚ → ℚ → ApplyOutcome Cell Decision} {v v' : Option S}
    {u u' : Option Cell} (hu : ∀ cost, check' u now cost = inCell cell (check v now cost))
    (hu' : ∀ cost, check' u' now cost = inCell cell (check v' now cost))
    (h : SameAt check now v v') : SameAt check' now u u' := by
  have hseen : ∀ out : ApplyOutcome S Decision, (inCell cell out).seen
      = (out.seen.1, out.seen.2.map (Prod.map (Option.map cell) id)) := by
    rintro ⟨state, result, ttlMs, persist⟩
    cases persist <;> rfl
  intro cost
  rw [hu, hu', hseen, hseen, h cost]

omit [Rounding] in
theorem pushedTat_eq (stored : Option ℚ) (now : ℚ) :
    pushedTat stored now = Gcra.tatOf stored now :=
  (ite_lt_eq_max _ _).trans (max_comm _ _)

theorem refilledTokens_eq (cfg : TokenBucket.Config) (st : Option TokenBucket.State) (now : ℚ) :
    refilledTokens cfg (st.map TokenBucket.State.tokens) (st.map TokenBucket.State.last) now
      = TokenBucket.tokensAt cfg st now := by
  have hmin : refilledTokens cfg (st.map TokenBucket.State.tokens)
      (st.map TokenBucket.State.last) now
      = min cfg.capacity (fl ((st.map TokenBucket.State.tokens).getD cfg.capacity
        + fl ((if fl (now - (st.map TokenBucket.State.last).getD now) < 0 then 0
          else fl (now - (st.map TokenBucket.State.last).getD now)) * cfg.refillPerMs))) :=
    ite_lt_eq_min _ _
  rw [hmin, ite_lt_eq_max]
  cases st <;> rfl

/-- **A stale value acts as none.** -/
theorem sameAt_of_stale {cell : Cell} (hleaves : kind.Leaves cell)
    (h : kind.Stale cell.value now) : SameAt (kind.check foreign) now (some cell) none := by
  cases kind with
  | gcra cfg =>
    cases cell with
    | tat t =>
      have hpassed : SameAt (Gcra.check cfg) now (some t) none := Gcra.seen_of_le h
      exact sameAt_inCell (fun _ => rfl) (fun _ => rfl) hpassed
    | _ => exact absurd hleaves id
  | tokenBucket cfg =>
    cases cell with
    | bucket st =>
      have hfull : TokenBucket.tokensAt cfg (some st) now = TokenBucket.tokensAt cfg none now :=
        (refilledTokens_eq cfg (some st) now).symm.trans (h.trans (refilledTokens_eq cfg none now))
      exact sameAt_inCell (fun _ => rfl) (fun _ => rfl) (TokenBucket.seen_of_eq hfull)
    | _ => exact absurd hleaves id
  | fixedWindow cfg =>
    cases cell with
    | window st =>
      have hstart : st.start ≠ startOf cfg.windowMs now := fun heq => h (congrArg some heq)
      exact sameAt_inCell (fun _ => rfl) (fun _ => rfl) (FixedWindow.seen_of_start_ne hstart)
    | _ => exact absurd hleaves id

/-! ### The branches of the script -/

/-- A branch of the script beside its strategy: they say alike, ask for a write together, and write
the same state. -/
structure Branch (kind : Kind) (v : Option Value) (out : ApplyOutcome Cell Decision)
    (d : Decision) (w : Option Write) : Prop where
  alike : Alike d out.result
  resetAt : kind.endOf d.resetAt = out.result.resetAt
  asks : w.isSome = out.persist
  leaves : out.persist = true → ∃ cell, out.state = some cell ∧ kind.Leaves cell
  writes : ∀ w' cell server, w = some w' → out.state = some cell → 0 < w'.px →
    put id server v w' = some (some (Redis.writePx server cell.value w'.px))

section Whole

omit [Rounding]

theorem alike_of_whole {d : Decision} (hremaining : (⌊d.remaining⌋ : ℚ) = d.remaining)
    (hretry : (⌊d.retryAfterMs⌋ : ℚ) = d.retryAfterMs) (hnonneg : 0 ≤ d.remaining) : Alike d d :=
  ⟨rfl, rfl, hremaining, rfl, hretry, hnonneg⟩

theorem floor_intCast_cast (n : ℤ) : ((⌊(n : ℚ)⌋ : ℤ) : ℚ) = n := by rw [Int.floor_intCast]

theorem floor_zero_cast : ((⌊(0 : ℚ)⌋ : ℤ) : ℚ) = 0 := by rw [Int.floor_zero, Int.cast_zero]

theorem floor_max_zero (x : ℚ) :
    (⌊max (0 : ℚ) ⌊x⌋⌋ : ℚ) = max (0 : ℚ) ⌊x⌋ := by
  rw [show max (0 : ℚ) ⌊x⌋ = ((max 0 ⌊x⌋ : ℤ) : ℚ) by push_cast; rfl, Int.floor_intCast]

end Whole

theorem evalGcra_eq (cfg : Gcra.Config) (v : Option ℚ) (cost now : ℚ) :
    evalGcra cfg v cost now =
      ((Gcra.check cfg v now cost).result,
        if now < fl (Gcra.newTatOf cfg v now cost - cfg.tau) then none
        else some (.tat (Gcra.newTatOf cfg v now cost)
          (max 1 ⌈fl (Gcra.newTatOf cfg v now cost - now)⌉))) := by
  rw [evalGcra, Gcra.check_eq_rounded, pushedTat_eq]
  by_cases h : now < fl (Gcra.newTatOf cfg v now cost - cfg.tau)
  · rw [if_pos h, if_pos h]
    exact if_pos h
  · rw [if_neg h, if_neg h]
    exact if_neg h

theorem branch_gcra (cfg : Gcra.Config) (v : Option ℚ) (now cost : ℚ) :
    Branch (.gcra cfg) (v.map Value.str) (inCell .tat (Gcra.check cfg v now cost))
      (evalGcra cfg v cost now).1 (evalGcra cfg v cost now).2 := by
  rw [evalGcra_eq, Gcra.check_eq_rounded]
  dsimp only
  split
  · exact ⟨alike_of_whole (floor_max_zero _) (floor_intCast_cast _) (le_max_left _ _), rfl, rfl,
      fun h => absurd h Bool.false_ne_true, by simp⟩
  · refine ⟨alike_of_whole (floor_max_zero _) floor_zero_cast (le_max_left _ _), rfl, rfl,
      fun _ => ⟨_, rfl, trivial⟩, ?_⟩
    rintro w cell server hw hcell -
    obtain rfl := Option.some.inj hw
    obtain rfl := Option.some.inj hcell
    rfl

theorem branch_tokenBucket (cfg : TokenBucket.Config) (st : Option TokenBucket.State)
    (now cost : ℚ) :
    Branch (.tokenBucket cfg) (st.map fun st => (Cell.bucket st).value)
      (inCell .bucket (TokenBucket.check cfg st now cost))
      (evalBucket cfg (st.map TokenBucket.State.tokens) (st.map TokenBucket.State.last) cost now).1
      (evalBucket cfg (st.map TokenBucket.State.tokens) (st.map TokenBucket.State.last) cost
        now).2 := by
  rw [evalBucket, TokenBucket.check]
  dsimp only
  rw [refilledTokens_eq]
  by_cases h : cost ≤ TokenBucket.tokensAt cfg st now
  · rw [if_pos h, if_pos h]
    refine ⟨alike_of_whole (floor_max_zero _) floor_zero_cast (le_max_left _ _), rfl, rfl,
      fun _ => ⟨_, rfl, trivial⟩, ?_⟩
    rintro w cell server hw hcell hpx
    obtain rfl := Option.some.inj hw
    obtain rfl := Option.some.inj hcell
    rw [put]
    cases st <;> exact congrArg some (Redis.expireIn_of_pos _ _ hpx)
  · rw [if_neg h, if_neg h]
    exact ⟨alike_of_whole (floor_max_zero _) (floor_intCast_cast _) (le_max_left _ _), rfl, rfl,
      fun h => absurd h Bool.false_ne_true, by simp⟩

omit [Rounding] in
theorem storedCount_eq (st : Option FixedWindow.State) (start : ℚ) :
    storedCount (st.map FixedWindow.State.start) (st.map FixedWindow.State.count) start
      = FixedWindow.countIn st start := by
  cases st with
  | none => rfl
  | some st => simp only [storedCount, FixedWindow.countIn, Option.map_some, Option.some.injEq,
      Option.getD_some]

omit [Rounding] in
/-- What a window has left, in the script and in process. -/
theorem alike_window {allowed : Bool} {limit left reset retry : ℚ}
    (hretry : (⌊retry⌋ : ℚ) = retry) :
    Alike ⟨allowed, limit, max 0 left, reset, retry⟩
      ⟨allowed, limit, max (0 : ℚ) ⌊left⌋, ⌈reset⌉, retry⟩ where
  allowed := rfl
  limit := rfl
  remaining := by
    rcases le_total 0 left with h | h
    · rw [max_eq_right h, max_eq_right (by exact_mod_cast Int.floor_nonneg.mpr h)]
    · have hfloor : (⌊left⌋ : ℚ) ≤ 0 := (Int.floor_le _).trans h
      rw [max_eq_left h, max_eq_left hfloor, Int.floor_zero, Int.cast_zero]
  retryAfterMs := rfl
  retryAfterMs_whole := hretry
  nonneg := le_max_left _ _

theorem branch_fixedWindow (cfg : FixedWindow.Config) (st : Option FixedWindow.State)
    (now cost : ℚ) :
    Branch (.fixedWindow cfg) (st.map fun st => (Cell.window st).value)
      (inCell .window (FixedWindow.check cfg st now cost))
      (evalWindow cfg (st.map FixedWindow.State.start) (st.map FixedWindow.State.count) cost now).1
      (evalWindow cfg (st.map FixedWindow.State.start) (st.map FixedWindow.State.count) cost
        now).2 := by
  rw [evalWindow, FixedWindow.check]
  dsimp only
  rw [storedCount_eq]
  by_cases h : fl (FixedWindow.countIn st (startOf cfg.windowMs now) + cost) ≤ cfg.limit
  · rw [if_pos h, if_pos h]
    refine ⟨alike_window floor_zero_cast, rfl, rfl, fun _ => ⟨_, rfl, trivial⟩, ?_⟩
    rintro w cell server hw hcell hpx
    obtain rfl := Option.some.inj hw
    obtain rfl := Option.some.inj hcell
    rw [put]
    cases st <;> exact congrArg some (Redis.expireIn_of_pos _ _ hpx)
  · rw [if_neg h, if_neg h]
    exact ⟨alike_window (floor_intCast_cast _), rfl, rfl,
      fun h => absurd h Bool.false_ne_true, by simp⟩

/-- **A branch of the script does what its strategy does**, on a state of its own. -/
theorem evalDim_eq (foreign : Foreign) (kind : Kind) {state : Option Cell} (now cost : ℚ)
    (hstate : ∀ c ∈ state, kind.Leaves c) :
    ∃ d w, evalDim kind cost now (state.map Cell.value) = some (d, w) ∧
      Branch kind (state.map Cell.value) (kind.check foreign state now cost) d w := by
  cases kind with
  | gcra cfg =>
    rcases state with _ | ⟨t⟩ | ⟨st⟩ | ⟨st⟩
    · exact ⟨_, _, rfl, branch_gcra cfg none now cost⟩
    · exact ⟨_, _, rfl, branch_gcra cfg (some t) now cost⟩
    · exact absurd (hstate _ rfl) id
    · exact absurd (hstate _ rfl) id
  | tokenBucket cfg =>
    rcases state with _ | ⟨t⟩ | ⟨st⟩ | ⟨st⟩
    · exact ⟨_, _, rfl, branch_tokenBucket cfg none now cost⟩
    · exact absurd (hstate _ rfl) id
    · exact ⟨_, _, rfl, branch_tokenBucket cfg (some st) now cost⟩
    · exact absurd (hstate _ rfl) id
  | fixedWindow cfg =>
    rcases state with _ | ⟨t⟩ | ⟨st⟩ | ⟨st⟩
    · exact ⟨_, _, rfl, branch_fixedWindow cfg none now cost⟩
    · exact absurd (hstate _ rfl) id
    · exact absurd (hstate _ rfl) id
    · exact ⟨_, _, rfl, branch_fixedWindow cfg (some st) now cost⟩

end ThrottleKit.Multi
