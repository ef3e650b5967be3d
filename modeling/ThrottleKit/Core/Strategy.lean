import ThrottleKit.Core.Types
import ThrottleKit.Lib.Expiry
import ThrottleKit.Lib.Rounding

/-!
# Strategies, and stores that expire

A strategy is a pure transition on the state kept for a key. The state it writes comes with a TTL,
and a store may drop it at any moment from the end of the TTL on. `TtlTransparent` says that no
decision ever depends on whether and when the store does.

## Main definitions

* `Strategy`, `Introspectable` — an algorithm with its policy, and what it tells without a check
* `expiring` — a transition against a store that keeps due instants
* `TtlTransparent` — dropping expired states changes no result
* `LastsTo` — a written state is spent when it is due
* `DueIsNone` — an expired state acts as none
* `DenialsLast` — a denial holds for its `retryAfterMs`
-/

namespace ThrottleKit

open Rounding

/-- A pure rate-limiting algorithm over state `S`. -/
structure Strategy (S : Type) where
  name : String
  /-- Effective ceiling reported to clients. -/
  limit : ℚ
  /-- Upper bound on how long state stays relevant. -/
  ttlMs : ℚ
  /-- `check(state, now, cost)`. -/
  check : Option S → ℚ → ℚ → ApplyOutcome S Decision

/-- A strategy that offers `peek` and `forecast`. -/
structure Introspectable (S : Type) extends Strategy S where
  /-- `peek(state, now)`. -/
  peek : Option S → ℚ → Decision
  /-- `forecast(state, now, cost)`. -/
  forecast : Option S → ℚ → ℚ → Forecast

variable {S R : Type}

/-- What a store sees of an outcome: the result, and what is written and for how long. -/
def ApplyOutcome.seen (out : ApplyOutcome S R) : R × Option (Option S × ℚ) :=
  (out.result, if out.persist then some (out.state, out.ttlMs) else none)

/-- A transition as a store runs it: a state written at `now` is due `ttlMs` later. -/
def expiring [Rounding] (check : Option S → ℚ → ℚ → ApplyOutcome S R) :
    Expiry.Transition ℚ ℚ S R := fun state now cost =>
  let out := check state now cost
  (out.result,
    if out.persist then some (out.state.map fun s => (s, fl (now + out.ttlMs))) else none)

theorem expiring_eq [Rounding] (check : Option S → ℚ → ℚ → ApplyOutcome S R) (state : Option S)
    (now cost : ℚ) : expiring check state now cost
      = ((check state now cost).seen.1, (check state now cost).seen.2.map fun w =>
          w.1.map fun s => (s, fl (now + w.2))) := by
  unfold expiring ApplyOutcome.seen
  dsimp only
  split <;> rfl

/-- What a check writes is as `spent` says by the instant at which it is due. -/
def LastsTo [Rounding] (spent : S → ℚ → Prop) (check : Option S → ℚ → ℚ → ApplyOutcome S R)
    (state : Option S) (now cost : ℚ) : Prop :=
  ∀ s ∈ (check state now cost).state, (check state now cost).persist = true →
    spent s (fl (now + (check state now cost).ttlMs))

instance LastsTo.decidable [Rounding] (spent : S → ℚ → Prop) [∀ s t, Decidable (spent s t)]
    (check : Option S → ℚ → ℚ → ApplyOutcome S R) (state : Option S) (now cost : ℚ) :
    Decidable (LastsTo spent check state now cost) :=
  inferInstanceAs (Decidable (∀ s ∈ (check state now cost).state, _))

/-- The results of a run on a store that may drop each state once its TTL has run out are those of
the same checks on a store that keeps every state, when every check meets `lasts`. -/
def TtlTransparent [Rounding] (lasts : Option S → ℚ → ℚ → Prop)
    (check : Option S → ℚ → ℚ → ApplyOutcome S R) : Prop :=
  ∀ ops : List (Expiry.Op String ℚ ℚ), ops.Pairwise (fun op op' => op.time ≤ op'.time) →
    Expiry.AllLast (expiring check) lasts Expiry.Cells.empty (ops.filter Expiry.Op.isCall) →
    Expiry.answers (expiring check) Expiry.Cells.empty ops
      = Expiry.answers (expiring check) Expiry.Cells.empty (ops.filter Expiry.Op.isCall)

/-- A TTL rounded up, and at least one, covers the time it was rounded from. -/
theorem add_le_of_ttl {now d t : ℚ} (h : now + max 1 (⌈d⌉ : ℚ) ≤ t) : now + d ≤ t :=
  le_trans (add_le_add_right ((Int.le_ceil d).trans (le_max_right _ _)) now) h

/-- An instant that has passed acts as none where it is pushed up to `now`. -/
theorem max_getD_of_le {s now : ℚ} (h : s ≤ now) :
    max ((some s).getD now) now = max ((none : Option ℚ).getD now) now := by
  simp [h]

/-- What an expiring transition writes. -/
theorem eq_some_of_expiring [Rounding] {check : Option S → ℚ → ℚ → ApplyOutcome S R}
    {state : Option S} {now cost due : ℚ} {s : S}
    (h : (expiring check state now cost).2 = some (some (s, due))) :
    (check state now cost).persist = true ∧ (check state now cost).state = some s ∧
      due = fl (now + (check state now cost).ttlMs) := by
  unfold expiring at h
  dsimp only at h
  split at h
  · rename_i hpersist
    obtain ⟨s', hs', heq⟩ := Option.map_eq_some_iff.mp (Option.some.inj h)
    obtain ⟨rfl, rfl⟩ := Prod.mk.inj heq
    exact ⟨hpersist, hs', rfl⟩
  · cases h

/-- A transition is transparent when what the checks that meet `lasts` write acts as no state from
the instant at which it is due. `good now state` is what is known of the states that checks up to
`now` leave. -/
theorem ttlTransparent_of_eq [Rounding] {lasts : Option S → ℚ → ℚ → Prop}
    {check : Option S → ℚ → ℚ → ApplyOutcome S R} (good : ℚ → S → Prop)
    (hmono : ∀ {t t' s}, t ≤ t' → good t s → good t' s)
    (hwrite : ∀ {t state cost s}, (∀ s' ∈ state, good t s') →
      (check state t cost).persist = true → (check state t cost).state = some s → good t s)
    (hdue : ∀ {t state cost s}, (∀ s' ∈ state, good t s') → lasts state t cost →
      (check state t cost).persist = true → (check state t cost).state = some s →
      ∀ t', fl (t + (check state t cost).ttlMs) ≤ t' →
        ∀ cost', (check (some s) t' cost').seen = (check none t' cost').seen) :
    TtlTransparent lasts check := by
  intro ops hsorted hlast
  have hforget : Expiry.Forgettable (expiring check) lasts (fun t state => ∀ s ∈ state, good t s)
      fun t v v' => ∀ t', t ≤ t' → ∀ b, expiring check v t' b = expiring check v' t' b := by
    refine .of_eq ?_ ?_ ?_ ?_
    · simp
    · exact fun hle h s hs => hmono hle (h s hs)
    · rintro t v cost w hv hw s hs
      obtain ⟨⟨s', due⟩, rfl, rfl⟩ := Option.map_eq_some_iff.mp hs
      obtain ⟨hpersist, hstate, -⟩ := eq_some_of_expiring hw
      exact hwrite hv hpersist hstate
    · intro t v cost s due hv hlasts hw t' _ hdue' cost'
      obtain ⟨hpersist, hstate, rfl⟩ := eq_some_of_expiring hw
      rw [expiring_eq, expiring_eq, hdue hv hlasts hpersist hstate t' hdue' cost']
  exact hforget.answers_eq hsorted hlast

/-- A transition whose spent states act as no state is transparent as long as what it writes is
spent when it is due. -/
theorem ttlTransparent_of_spent [Rounding] {check : Option S → ℚ → ℚ → ApplyOutcome S R}
    {spent : S → ℚ → Prop} (hmono : ∀ {s t t'}, t ≤ t' → spent s t → spent s t')
    (hspent : ∀ {s t}, spent s t → ∀ cost,
      (check (some s) t cost).seen = (check none t cost).seen) :
    TtlTransparent (LastsTo spent check) check :=
  ttlTransparent_of_eq (fun _ _ => True) (fun _ _ => trivial) (fun _ _ _ => trivial)
    fun _ hlasts hpersist hstate _ hdue => hspent (hmono hdue (hlasts _ hstate hpersist))

theorem TtlTransparent.of_imp [Rounding] {lasts lasts' : Option S → ℚ → ℚ → Prop}
    {check : Option S → ℚ → ℚ → ApplyOutcome S R} (h : TtlTransparent lasts check)
    (himp : ∀ state now cost, lasts' state now cost → lasts state now cost) :
    TtlTransparent lasts' check :=
  fun ops hsorted hlast => h ops hsorted (hlast.imp himp)

/-- A state acts as none from the end of its TTL on, where checks are at instants that meet
`at_`. -/
def DueIsNone [Rounding] (at_ : ℚ → Prop) (check : Option S → ℚ → ℚ → ApplyOutcome S R) : Prop :=
  ∀ t state cost s, at_ t → (check state t cost).persist = true →
    (check state t cost).state = some s → ∀ t', at_ t' → fl (t + (check state t cost).ttlMs) ≤ t' →
      ∀ cost', (check (some s) t' cost').seen = (check none t' cost').seen

theorem DueIsNone.mono [Rounding] {at_ at' : ℚ → Prop}
    {check : Option S → ℚ → ℚ → ApplyOutcome S R} (himp : ∀ t, at' t → at_ t)
    (h : DueIsNone at_ check) : DueIsNone at' check :=
  fun _ _ _ _ hat hpersist hstate _ hat' => h _ _ _ _ (himp _ hat) hpersist hstate _ (himp _ hat')

/-! ### Denials -/

/-- What a denial promises, at instants that meet `at_`: it writes nothing, and a check that costs
no less is denied as well until the `retryAfterMs` of the denial is over. -/
structure DenialsLast [Rounding] (at_ : ℚ → Prop)
    (check : Option S → ℚ → ℚ → ApplyOutcome S Decision) :
    Prop where
  keeps : ∀ state t c, (check state t c).result.allowed = false → (check state t c).persist = false
  denies : ∀ state t t' c c', at_ t → at_ t' → t ≤ t' → c ≤ c' →
    (check state t c).result.allowed = false →
      t' < fl (t + (check state t c).result.retryAfterMs) →
        (check state t' c').result.allowed = false

/-- A whole millisecond. -/
def WholeMs (t : ℚ) : Prop := (⌊t⌋ : ℚ) = t

instance (t : ℚ) : Decidable (WholeMs t) := inferInstanceAs (Decidable (_ = _))

/-- At whole milliseconds, a duration rounded up is over when the duration is. -/
theorem lt_add_of_wholeMs {t t' d : ℚ} (ht : WholeMs t) (ht' : WholeMs t') (h : t' < t + ⌈d⌉) :
    t' < t + d := by
  have hlt : ⌊t'⌋ - ⌊t⌋ < ⌈d⌉ := by
    have h' : ((⌊t'⌋ : ℤ) : ℚ) < ⌊t⌋ + ⌈d⌉ := by rwa [ht, ht']
    have h'' : ⌊t'⌋ < ⌊t⌋ + ⌈d⌉ := by exact_mod_cast h'
    omega
  have hd := Int.lt_ceil.mp hlt
  push_cast at hd
  rw [ht, ht'] at hd
  linarith

end ThrottleKit
