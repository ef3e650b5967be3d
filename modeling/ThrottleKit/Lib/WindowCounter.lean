import Mathlib.Algebra.BigOperators.Group.List.Basic
import Mathlib.Algebra.Order.BigOperators.Group.List
import Mathlib.Algebra.Order.Group.Defs
import Mathlib.Tactic.Common
import ThrottleKit.Lib.Lockstep

/-!
# A counter that keeps one window

A counter of amounts by window that has room for one window only: it keeps the window it was charged
for last, and a charge of any other window starts from nothing. What it was charged for each window
is the ledger it stands for.

The counter knows a window it keeps, and a window for which nothing was charged. A charge of a
window it knows stays within the limit; a charge of one it has forgotten may be anything up to the
limit again.

## Main definitions

* `Counter`, `count`, `charge` — the counter
* `Ledger`, `next` — the counter with everything it was charged
* `Known` — the counter has not forgotten what the window was charged

## Main results

* `Within.next` — charges of known windows keep every window within the limit
* `not_within_of_forgotten` — a forgotten window can be overcharged
-/

namespace WindowCounter

variable {W α : Type*}

section Totals

variable [DecidableEq W] [AddCommGroup α]

/-- The window that is kept, and what it was charged. -/
abbrev Counter (W α : Type*) := Option (W × α)

/-- What the counter has for a window. -/
def count (s : Counter W α) (w : W) : α :=
  match s with
  | some (w', n) => if w' = w then n else 0
  | none => 0

@[simp] theorem count_none (w : W) : count (none : Counter W α) w = 0 := rfl

@[simp] theorem count_self (w : W) (n : α) : count (some (w, n)) w = n := if_pos rfl

theorem count_of_ne {w w' : W} (h : w' ≠ w) (n : α) : count (some (w', n)) w = 0 := if_neg h

/-- What was charged for `w`. -/
def spent (w : W) (l : List (W × α)) : α := ((l.filter fun p => p.1 = w).map Prod.snd).sum

@[simp] theorem spent_nil (w : W) : spent w ([] : List (W × α)) = 0 := rfl

theorem spent_concat (w w' : W) (amount : α) (l : List (W × α)) :
    spent w (l ++ [(w', amount)]) = spent w l + if w' = w then amount else 0 := by
  by_cases h : w' = w <;> simp [spent, List.filter_append, h]

theorem spent_eq_zero {w : W} {l : List (W × α)} (h : ∀ p ∈ l, p.1 ≠ w) : spent w l = 0 := by
  have hnone : (l.filter fun p => p.1 = w) = [] :=
    List.filter_eq_nil_iff.mpr fun p hp => by simpa using h p hp
  rw [spent, hnone]
  rfl

end Totals

variable [DecidableEq W] [AddCommGroup α] [LinearOrder α]

/-- Charge an amount for a window if it fits. -/
def charge (limit : α) : Lockstep.Service (Counter W α) (W × α) Bool := fun s a =>
  if count s a.1 + a.2 ≤ limit then (some (a.1, count s a.1 + a.2), true) else (s, false)

/-- A counter with everything it was charged. -/
structure Ledger (W α : Type*) where
  counter : Counter W α
  charged : List (W × α)

/-- What happens to a counter. -/
inductive Op (W α : Type*)
  | charge (w : W) (amount : α)
  /-- The counter is lost. -/
  | forget

/-- The ledger after an operation. -/
def next (limit : α) (s : Ledger W α) : Op W α → Ledger W α
  | .charge w amount =>
    let r := charge limit s.counter (w, amount)
    ⟨r.1, if r.2 then s.charged ++ [(w, amount)] else s.charged⟩
  | .forget => ⟨none, s.charged⟩

/-- The counter keeps `w`, or nothing was charged for it. -/
def Known (s : Ledger W α) (w : W) : Prop :=
  (∃ p ∈ s.counter, p.1 = w) ∨ ∀ p ∈ s.charged, p.1 ≠ w

/-- The operation, if it is a charge, is of a window the counter knows. -/
def Op.Known (s : Ledger W α) : Op W α → Prop
  | .charge w _ => WindowCounter.Known s w
  | .forget => True

/-- The counter has what its window was charged, and no window was charged more than the limit. -/
structure Within (limit : α) (s : Ledger W α) : Prop where
  current : ∀ p ∈ s.counter, p.2 = spent p.1 s.charged
  le_limit : ∀ w, spent w s.charged ≤ limit

variable {limit : α} {s : Ledger W α}

theorem Within.start (h : 0 ≤ limit) : Within limit (⟨none, []⟩ : Ledger W α) :=
  ⟨fun p hp => by simp at hp, fun _ => h⟩

theorem Within.count_eq (h : Within limit s) {w : W} (hknown : Known s w) :
    count s.counter w = spent w s.charged := by
  cases hcounter : s.counter with
  | none =>
    rcases hknown with ⟨p, hp, -⟩ | hnone
    · simp [hcounter] at hp
    · rw [count_none, spent_eq_zero hnone]
  | some p =>
    obtain ⟨w', n⟩ := p
    by_cases hw : w' = w
    · subst hw
      rw [count_self]
      exact h.current _ hcounter
    · rw [count_of_ne hw]
      rcases hknown with ⟨p, hp, hpw⟩ | hnone
      · obtain rfl : (w', n) = p := by simpa [hcounter] using hp
        exact absurd hpw hw
      · rw [spent_eq_zero hnone]

/-- **Charges of known windows keep every window within the limit.** -/
theorem Within.next (h : Within limit s) {op : Op W α} (hknown : op.Known s) :
    Within limit (next limit s op) := by
  cases op with
  | forget => exact ⟨fun p hp => by simp [WindowCounter.next] at hp, h.le_limit⟩
  | charge w amount =>
    have hcount := h.count_eq hknown
    rw [WindowCounter.next, charge]
    dsimp only
    split
    · rename_i hfits
      rw [hcount] at hfits ⊢
      constructor
      · intro p hp
        obtain rfl := Option.some.inj hp
        simp [spent_concat]
      · intro w'
        rw [if_pos rfl, spent_concat]
        split
        · rename_i hw
          rw [← hw]
          exact hfits
        · simpa using h.le_limit w'
    · exact h

variable [IsOrderedAddMonoid α]

/-- What was charged for a window with a charge is positive, where charges are. -/
theorem spent_pos {w : W} {l : List (W × α)} (hpos : ∀ p ∈ l, 0 < p.2) {p : W × α} (hp : p ∈ l)
    (hw : p.1 = w) : 0 < spent w l := by
  refine List.sum_pos _ (fun x hx => ?_) ?_
  · obtain ⟨q, hq, rfl⟩ := List.mem_map.mp hx
    exact hpos q (List.mem_filter.mp hq).1
  · refine List.ne_nil_of_mem (a := p.2) (List.mem_map_of_mem ?_)
    exact List.mem_filter.mpr ⟨hp, by simpa using hw⟩

/-- **A forgotten window can be overcharged**: the limit fits in it again. -/
theorem not_within_of_forgotten (hpos : ∀ p ∈ s.charged, 0 < p.2) {w : W}
    (h : ¬ Known s w) : limit < spent w (next limit s (.charge w limit)).charged := by
  rw [Known, not_or] at h
  obtain ⟨hkept, hcharged⟩ := h
  push Not at hcharged
  obtain ⟨p, hp, hpw⟩ := hcharged
  have hcount : count s.counter w = 0 := by
    cases hcounter : s.counter with
    | none => rfl
    | some q =>
      refine count_of_ne (fun hq => hkept ⟨q, hcounter, hq⟩) q.2
  rw [next, charge]
  dsimp only
  rw [hcount, zero_add, if_pos le_rfl]
  dsimp only
  rw [if_pos rfl, spent_concat, if_pos rfl]
  exact lt_add_of_pos_left limit (spent_pos hpos hp hpw)

end WindowCounter
