import Mathlib.Logic.Function.Basic
import ThrottleKit.Core.Strategy
import ThrottleKit.Lib.Rounding

/-!
# The in-process limiter

A limiter validates the cost, namespaces the key and runs the transition of its strategy on a store.
The store here is the unbounded in-process one: an entry carries its expiry and is gone for every
transition once that is reached.

## Main definitions

* `Entries`, with `pending` and `applySync`
* `Limiter.check`, `Limiter.peek`, `Limiter.forecast`

## Main results

* `pending_applySync` — what later transitions find
* `DueIsNone.sameAt` — a state behind its TTL or not acts the same
-/

namespace ThrottleKit

variable {S R : Type}

/-- The entries of an in-process store, each with its expiry. -/
abbrev Entries (S : Type) := String → Option (S × ℚ)

namespace Entries

/-- A store with no entries. -/
def empty : Entries S := fun _ => none

/-- The state a transition at `now` finds. -/
def pending (e : Entries S) (key : String) (now : ℚ) : Option S :=
  (e key).bind fun entry => if entry.2 ≤ now then none else some entry.1

/-- `applySync(key, transform, now)`. -/
def applySync [Rounding] (e : Entries S) (key : String)
    (transform : Option S → ApplyOutcome S R) (now : ℚ) : Entries S × R :=
  let out := transform (e.pending key now)
  if out.persist then
    (Function.update e key
      (out.state.map fun state => (state, Rounding.fl (now + max 0 out.ttlMs))), out.result)
  else (e, out.result)

variable {e : Entries S} {key : String} {transform : Option S → ApplyOutcome S R} {now t : ℚ}

theorem applySync_snd [Rounding] :
    (e.applySync key transform now).2 = (transform (e.pending key now)).result := by
  unfold applySync
  dsimp only
  split <;> rfl

/-- A transition that keeps nothing leaves the store as it is. -/
theorem applySync_of_not_persist [Rounding] (h : (transform (e.pending key now)).persist = false) :
    (e.applySync key transform now).1 = e := by
  rw [applySync, h]
  rfl

theorem applySync_of_persist_rounded [Rounding]
    (h : (transform (e.pending key now)).persist = true) :
    (e.applySync key transform now).1 = Function.update e key
      ((transform (e.pending key now)).state.map fun state =>
        (state, Rounding.fl (now + max 0 (transform (e.pending key now)).ttlMs))) := by
  rw [applySync, h]
  rfl

theorem applySync_of_persist (h : (transform (e.pending key now)).persist = true) :
    (e.applySync key transform now).1 = Function.update e key
      ((transform (e.pending key now)).state.map fun state =>
        (state, now + max 0 (transform (e.pending key now)).ttlMs)) :=
  applySync_of_persist_rounded h

/-- What is found of another key. -/
theorem pending_applySync_of_ne [Rounding] {k : String} (hk : k ≠ key) :
    (e.applySync key transform now).1.pending k t = e.pending k t := by
  cases h : (transform (e.pending key now)).persist with
  | false => rw [applySync_of_not_persist h]
  | true => rw [applySync_of_persist_rounded h, pending, Function.update_of_ne hk, pending]

/-- What is found of the key after a transition that keeps its state: that state, until the TTL has
run out. -/
theorem pending_applySync [Rounding] {s : S}
    (hpersist : (transform (e.pending key now)).persist = true)
    (hstate : (transform (e.pending key now)).state = some s) :
    (e.applySync key transform now).1.pending key t
      = if Rounding.fl (now + max 0 (transform (e.pending key now)).ttlMs) ≤ t then none
        else some s := by
  rw [applySync_of_persist_rounded hpersist, pending, Function.update_self, hstate]
  rfl

end Entries

/-- `rateLimit({ strategy, prefix }).check(key, cost)`. -/
def Limiter.check [Rounding] (strategy : Strategy S) (pre : Option String) (e : Entries S)
    (key : String) (cost now : ℚ) : Entries S × Except CostError Decision :=
  match requireCost cost with
  | .error err => (e, .error err)
  | .ok () =>
    let out := e.applySync (prefixer pre key) (fun state => strategy.check state now cost) now
    (out.1, .ok out.2)

theorem Limiter.check_of_requireCost [Rounding] {strategy : Strategy S} {pre : Option String}
    {e : Entries S} {key : String} {cost now : ℚ} (h : requireCost cost = .ok ()) :
    Limiter.check strategy pre e key cost now =
      ((e.applySync (prefixer pre key) (fun state => strategy.check state now cost) now).1,
        .ok (strategy.check (e.pending (prefixer pre key) now) now cost).result) := by
  rw [check, h]
  exact congrArg (fun d => (_, Except.ok d)) Entries.applySync_snd

/-- The transform of an introspection: it projects the state and keeps nothing. -/
def readOnlyTransform (project : Option S → ℚ → R) (now : ℚ) : Option S → ApplyOutcome S R :=
  fun state => ⟨state, project state now, 0, false⟩

/-- `rateLimit({ strategy, prefix }).peek(key)`. -/
def Limiter.peek [Rounding] (strategy : Introspectable S) (pre : Option String) (e : Entries S)
    (key : String)
    (now : ℚ) : Entries S × Decision :=
  e.applySync (prefixer pre key) (readOnlyTransform strategy.peek now) now

/-- `rateLimit({ strategy, prefix }).forecast(key, cost)`. -/
def Limiter.forecast [Rounding] (strategy : Introspectable S) (pre : Option String) (e : Entries S)
    (key : String) (cost now : ℚ) : Entries S × Except CostError Forecast :=
  match requireCost cost with
  | .error err => (e, .error err)
  | .ok () =>
    let out := e.applySync (prefixer pre key)
      (readOnlyTransform (fun state now => strategy.forecast state now cost) now) now
    (out.1, .ok out.2)

theorem Limiter.peek_eq [Rounding] (strategy : Introspectable S) (pre : Option String)
    (e : Entries S) (key : String) (now : ℚ) : Limiter.peek strategy pre e key now
      = (e, strategy.peek (e.pending (prefixer pre key) now) now) :=
  rfl

theorem Limiter.forecast_fst [Rounding] (strategy : Introspectable S) (pre : Option String)
    (e : Entries S) (key : String) (cost now : ℚ) :
    (Limiter.forecast strategy pre e key cost now).1 = e := by
  rw [forecast]
  split <;> rfl

/-! ### States that act the same -/

/-- No check at `now` tells `v` from `v'`. -/
def SameAt (check : Option S → ℚ → ℚ → ApplyOutcome S R) (now : ℚ) (v v' : Option S) : Prop :=
  ∀ cost, (check v now cost).seen = (check v' now cost).seen

variable {check : Option S → ℚ → ℚ → ApplyOutcome S R} {now cost : ℚ} {v v' : Option S}

theorem SameAt.result_eq (h : SameAt check now v v') (cost : ℚ) :
    (check v now cost).result = (check v' now cost).result := congrArg Prod.fst (h cost)

theorem SameAt.persist_eq (h : SameAt check now v v') (cost : ℚ) :
    (check v now cost).persist = (check v' now cost).persist := by
  have hw := congrArg (Option.isSome ∘ Prod.snd) (h cost)
  simp only [Function.comp_apply, ApplyOutcome.seen] at hw
  cases hp : (check v now cost).persist <;> cases hp' : (check v' now cost).persist <;>
    simp [hp, hp'] at hw ⊢

/-- What one of the two writes, the other writes, for as long. -/
theorem SameAt.written_eq (h : SameAt check now v v')
    (hpersist : (check v' now cost).persist = true) :
    (check v now cost).persist = true ∧ (check v now cost).state = (check v' now cost).state ∧
      (check v now cost).ttlMs = (check v' now cost).ttlMs := by
  have hpersist' : (check v now cost).persist = true := (h.persist_eq cost).trans hpersist
  have hw := congrArg Prod.snd (h cost)
  simp only [ApplyOutcome.seen, hpersist, hpersist', if_true, Option.some.injEq,
    Prod.mk.injEq] at hw
  exact ⟨hpersist', hw⟩

theorem SameAt.write_eq {s : S} (h : SameAt check now v v')
    (hpersist : (check v' now cost).persist = true) (hstate : (check v' now cost).state = some s) :
    (check v now cost).persist = true ∧ (check v now cost).state = some s ∧
      (check v now cost).ttlMs = (check v' now cost).ttlMs := by
  obtain ⟨hpersist', hstate', httl⟩ := h.written_eq hpersist
  exact ⟨hpersist', hstate'.trans hstate, httl⟩

/-- A state that is spent acts the same whether it is still there. -/
theorem sameAt_of_spent {s : S} {t : ℚ} (hv : v = some s ∨ v = none) (hv' : v' = some s ∨ v' = none)
    (h : v = none ∨ v' = none → ∀ cost, (check (some s) t cost).seen = (check none t cost).seen) :
    SameAt check t v v' := by
  rcases hv with rfl | rfl
  · rcases hv' with rfl | rfl
    · exact fun _ => rfl
    · exact h (.inr rfl)
  · rcases hv' with rfl | rfl
    · exact fun cost => (h (.inl rfl) cost).symm
    · exact fun _ => rfl

/-- A state whose TTL has run out, or not, acts the same whether it is still there. -/
theorem DueIsNone.sameAt (h : DueIsNone (fun _ => True) check) {t : ℚ} {s : S}
    {stored : Option S} (hpersist : (check stored now cost).persist = true)
    (hstate : (check stored now cost).state = some s) (hv : v = some s ∨ v = none)
    (hv' : v' = some s ∨ v' = none) (hdue : v = none → now + (check stored now cost).ttlMs ≤ t)
    (hdue' : v' = none → now + (check stored now cost).ttlMs ≤ t) : SameAt check t v v' :=
  sameAt_of_spent hv hv' fun hnone =>
    h _ _ _ _ trivial hpersist hstate _ trivial (hnone.elim hdue hdue')

end ThrottleKit
