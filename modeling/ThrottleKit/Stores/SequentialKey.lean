import Mathlib.Data.Rat.Floor
import ThrottleKit.Core.Types
import ThrottleKit.Lib.Linearization

/-!
# One key of a distributed store, one operation at a time

What a store with lazy expiry is for, as far as one key goes: `apply` runs its transform on the
state of the key unless the state is past its deadline at the reading of the clock the call took,
`reset` forgets the key, and a reclaim forgets a state that is past its deadline. The stores that
build `apply` from several statements are compared with it.

## Main definitions

* `Cell` — the state of a key with its deadline
* `Op`, `service` — the operations, and what each does and answers
* `visible` — the state an operation finds at its reading
* `Keeping` — a transform that writes states only
-/

namespace ThrottleKit.SequentialKey

variable {S R : Type}

/-- The state kept for a key, and the instant at which it expires. -/
abbrev Cell (S : Type) := Option (S × ℤ)

/-- The state a reading of the clock at `now` finds. -/
def visible (c : Cell S) (now : ℤ) : Option S :=
  c.bind fun entry => if now < entry.2 then some entry.1 else none

@[simp] theorem visible_none (now : ℤ) : visible (none : Cell S) now = none := rfl

theorem visible_some (state : S) (deadline now : ℤ) :
    visible (some (state, deadline)) now = if now < deadline then some state else none := rfl

/-- When a state written at `now` expires: `now + Math.max(1, Math.ceil(ttlMs))`. -/
def deadline (now : ℤ) (ttlMs : ℚ) : ℤ := now + max 1 ⌈ttlMs⌉

/-- The operations on a key. -/
inductive Op (S R : Type)
  /-- `apply` at the reading `now`. -/
  | apply (transform : Option S → ApplyOutcome S R) (now : ℤ)
  | reset
  /-- The removal of a state that has expired at `now`. -/
  | reclaim (now : ℤ)

/-- The cell an operation leaves. -/
def next (c : Cell S) : Op S R → Cell S
  | .apply transform now =>
    let out := transform (visible c now)
    if out.persist then out.state.map fun state => (state, deadline now out.ttlMs) else c
  | .reset => none
  | .reclaim now => c.filter fun entry => now < entry.2

/-- What an operation answers: an `apply` the result of its transform. -/
def answer (c : Cell S) : Op S R → Option R
  | .apply transform now => some (transform (visible c now)).result
  | .reset => none
  | .reclaim _ => none

/-- The key, one operation at a time. -/
def service : Lockstep.Service (Cell S) (Op S R) (Option R) := fun c op => (next c op, answer c op)

theorem service_apply_of_not_persist {c : Cell S} {transform : Option S → ApplyOutcome S R}
    {now : ℤ} (h : (transform (visible c now)).persist = false) :
    service c (.apply transform now) = (c, some (transform (visible c now)).result) := by
  simp [service, next, answer, h]

theorem service_apply_of_persist {c : Cell S} {transform : Option S → ApplyOutcome S R} {now : ℤ}
    {state : S} (h : (transform (visible c now)).persist = true)
    (hstate : (transform (visible c now)).state = some state) :
    service c (.apply transform now)
      = (some (state, deadline now (transform (visible c now)).ttlMs),
          some (transform (visible c now)).result) := by
  simp [service, next, answer, h, hstate]

@[simp] theorem service_reset (c : Cell S) : service c (.reset : Op S R) = (none, none) := rfl

theorem service_reclaim_of_lt {state : S} {d now : ℤ} (h : now < d) :
    service (some (state, d)) (.reclaim now : Op S R) = (some (state, d), none) := by
  simp [service, next, answer, Option.filter, h]

theorem service_reclaim_of_le {state : S} {d now : ℤ} (h : d ≤ now) :
    service (some (state, d)) (.reclaim now : Op S R) = (none, none) := by
  simp [service, next, answer, Option.filter, h]

@[simp] theorem service_reclaim_none (now : ℤ) :
    service none (.reclaim now : Op S R) = (none, none) := rfl

/-- A transform that never writes an undefined state. -/
structure Keeping (S R : Type) where
  run : Option S → ApplyOutcome S R
  keeps : ∀ state, (run state).persist = true → (run state).state.isSome = true

/-- What the transform writes, when it writes. -/
def Keeping.encoded (t : Keeping S R) (state : Option S) (h : (t.run state).persist = true) : S :=
  (t.run state).state.get (t.keeps state h)

end ThrottleKit.SequentialKey
