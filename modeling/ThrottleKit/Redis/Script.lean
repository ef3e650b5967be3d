import ThrottleKit.Core.Types
import ThrottleKit.Lib.Lockstep
import ThrottleKit.Redis.Key

/-!
# Scripts on a Redis server

A script is run by `EVAL` on one key, atomically. It replies with integers: a number loses its
fraction, and 64 bits have to hold what is left.

## Main definitions

* `Eval` — one run of a script
* `runScript` — a script that reads one value and may write it back to live for a time
* `longLongs` — the numbers of a reply

## Main results

* `longLongs_eq_some_iff` — when a reply is the decision it was rounded from
-/

namespace ThrottleKit.Redis

/-- One run of a script: the clock of the server, `ARGV[1]`, and the cost. -/
structure Eval where
  server : ℤ
  nowArg : ℚ
  cost : ℚ

/-- The clock reading the script goes by. -/
def Eval.now (e : Eval) : ℚ := luaNow e.server e.nowArg

/-- A number without a fraction. -/
def Whole (x : ℚ) : Prop := (⌊x⌋ : ℚ) = x

instance (x : ℚ) : Decidable (Whole x) := inferInstanceAs (Decidable (_ = _))

/-- 64 bits hold a number. -/
def Fits (x : ℚ) : Prop := -2 ^ 63 ≤ x ∧ x < 2 ^ 63

instance (x : ℚ) : Decidable (Fits x) := inferInstanceAs (Decidable (_ ∧ _))

/-- The numbers of a reply, where 64 bits hold them all. What the others come out as is not
defined. -/
def longLongs (d : Decision) : Option Decision :=
  if Fits d.limit ∧ Fits d.remaining ∧ Fits d.resetAt ∧ Fits d.retryAfterMs then some d else none

/-- `EVAL`, for a script that reads the value of its key, and may write one that is to live for a
number of milliseconds. -/
def runScript {V : Type} (script : Option V → ℚ → ℚ → ApplyOutcome V Decision) :
    Lockstep.Service (Option (Key V)) Eval (Option Decision) := fun key e =>
  let out := script (read key e.server) e.now e.cost
  (if out.persist then out.state.map fun v => writePx e.server v ⌊out.ttlMs⌋ else key,
    longLongs out.result)

/-! ### What a reply loses -/

theorem whole_intCast (n : ℤ) : Whole n := by rw [Whole, Int.floor_intCast]

/-- Only whole numbers are replied as they are. -/
theorem luaInteger_eq_iff {x : ℚ} : (luaInteger x : ℚ) = x ↔ Whole x := by
  constructor
  · intro h
    rw [← h]
    exact whole_intCast _
  · intro h
    rw [← show ((⌊x⌋ : ℤ) : ℚ) = x from h, luaInteger_intCast]

/-- What is rounded up before it is replied, and what is not. -/
theorem luaInteger_eq_ceil_iff {x : ℚ} : (luaInteger x : ℚ) = ⌈x⌉ ↔ Whole x ∨ x < 0 := by
  rw [luaInteger]
  rcases le_or_gt 0 x with hx | hx
  · rw [if_pos hx, Int.cast_inj]
    have hnot : ¬ x < 0 := not_lt.mpr hx
    constructor
    · intro h
      refine .inl (le_antisymm (Int.floor_le x) ?_)
      rw [h]
      exact Int.le_ceil x
    · rintro (h | h)
      · rw [← show ((⌊x⌋ : ℤ) : ℚ) = x from h, Int.floor_intCast, Int.ceil_intCast]
      · exact absurd h hnot
  · rw [if_neg (not_le.mpr hx)]
    exact iff_of_true rfl (.inr hx)

/-- What is left of a count, rounded down on both sides. -/
theorem luaInteger_max_zero (x : ℚ) : (luaInteger (max 0 x) : ℚ) = max (0 : ℚ) ⌊x⌋ := by
  rw [luaInteger, if_pos (le_max_left 0 x)]
  rcases le_total 0 x with hx | hx
  · rw [max_eq_right hx, max_eq_right (by exact_mod_cast Int.floor_nonneg.mpr hx)]
  · have hfloor : (⌊x⌋ : ℚ) ≤ 0 := (Int.floor_le x).trans hx
    rw [max_eq_left hx, max_eq_left hfloor, Int.floor_zero, Int.cast_zero]

/-- What was not negative is cut off at zero in vain. -/
theorem luaInteger_of_nonneg {x : ℚ} (h : 0 ≤ x) : (luaInteger x : ℚ) = max (0 : ℚ) ⌊x⌋ := by
  rw [← luaInteger_max_zero, max_eq_right h]

/-- **When a reply is the decision it was rounded from.** -/
theorem longLongs_eq_some_iff {allowed : Bool} {limit remaining reset resetAt retry : ℚ} :
    longLongs ⟨allowed, luaInteger limit, remaining, luaInteger reset, retry⟩
        = some ⟨allowed, limit, remaining, resetAt, retry⟩ ↔
      (Whole limit ∧ Fits limit) ∧ Fits remaining ∧
        ((luaInteger reset : ℚ) = resetAt ∧ Fits resetAt) ∧ Fits retry := by
  rw [longLongs]
  constructor
  · intro h
    split at h
    · rename_i hfits
      obtain ⟨hlimit, hremaining, hreset, hretry⟩ := hfits
      have hd := Option.some.inj h
      have hlimit' : (luaInteger limit : ℚ) = limit := congrArg Decision.limit hd
      have hreset' : (luaInteger reset : ℚ) = resetAt := congrArg Decision.resetAt hd
      exact ⟨⟨luaInteger_eq_iff.mp hlimit', hlimit' ▸ hlimit⟩, hremaining,
        ⟨hreset', hreset' ▸ hreset⟩, hretry⟩
    · cases h
  · rintro ⟨⟨hwhole, hlimit⟩, hremaining, ⟨hreset, hresetAt⟩, hretry⟩
    rw [luaInteger_eq_iff.mpr hwhole, hreset, if_pos ⟨hlimit, hremaining, hresetAt, hretry⟩]

end ThrottleKit.Redis
