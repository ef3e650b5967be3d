import Mathlib.Algebra.Order.Group.Basic
import Mathlib.Data.List.TakeWhile
import Mathlib.Tactic.Common

/-!
# Trailing windows

A log of instants, and how many of them lie in the window of width `w` that ends now: later than
`now - w`, and not later than `now`.

A bound on the windows that end where something is recorded is a bound on all of them. An instant
that is recorded last is in every interval it lies in with instants of its own trailing window only,
as long as no two instants of the interval are `w` apart.

## Main definitions

* `trailing` — the instants of a log in the window that ends now
* `Narrow` — an interval without two instants that are `w` apart

## Main results

* `dropWhile_eq_trailing` — in a log in order, the instants to drop are a prefix
* `trailing_trailing` — what an earlier window dropped, a later one would have dropped
* `countP_record_le` — the bound on what is recorded now is one on every narrow interval
-/

namespace TrailingWindow

variable {T : Type*} [AddCommGroup T] [LinearOrder T]

/-- The instants of the log in the window of width `w` that ends at `now`. -/
def trailing (w now : T) (log : List T) : List T :=
  log.filter fun s => now - w < s ∧ s ≤ now

/-- No two instants of the interval are `w` apart. -/
def Narrow (w : T) (I : T → Bool) : Prop := ∀ s t, I s = true → I t = true → t - s < w

/-- The log with `n` instants recorded now. -/
def record (log : List T) (now : T) (n : ℕ) : List T := log ++ List.replicate n now

variable {w now now' : T} {log : List T}

theorem mem_trailing {s : T} : s ∈ trailing w now log ↔ s ∈ log ∧ now - w < s ∧ s ≤ now := by
  rw [trailing, List.mem_filter, decide_eq_true_eq]

@[simp] theorem trailing_nil : trailing w now ([] : List T) = [] := rfl

theorem trailing_append (log' : List T) :
    trailing w now (log ++ log') = trailing w now log ++ trailing w now log' :=
  List.filter_append log log'

theorem trailing_eq_nil (h : ∀ s ∈ log, s ≤ now - w) : trailing w now log = [] := by
  rw [trailing, List.filter_eq_nil_iff]
  intro s hs
  rw [decide_eq_true_eq, not_and]
  exact fun hlt => absurd hlt (not_lt.mpr (h s hs))

omit [AddCommGroup T] [LinearOrder T] in
theorem mem_record {s : T} {n : ℕ} (h : s ∈ record log now n) : s ∈ log ∨ s = now := by
  rcases List.mem_append.mp h with hold | hnew
  · exact .inl hold
  · exact .inr (List.eq_of_mem_replicate hnew)

omit [AddCommGroup T] in
theorem le_of_mem_record {s : T} {n : ℕ} (hle : ∀ s ∈ log, s ≤ now) (h : s ∈ record log now n) :
    s ≤ now := by
  rcases mem_record h with hold | rfl
  · exact hle s hold
  · exact le_rfl

omit [AddCommGroup T] in
theorem pairwise_record {n : ℕ} (hsorted : log.Pairwise (· ≤ ·)) (hle : ∀ s ∈ log, s ≤ now) :
    (record log now n).Pairwise (· ≤ ·) := by
  refine List.pairwise_append.mpr ⟨hsorted, List.pairwise_replicate.mpr (.inr le_rfl), ?_⟩
  intro s hs t ht
  rw [List.eq_of_mem_replicate ht]
  exact hle s hs

/-- **In a log in order, the instants to drop are a prefix.** -/
theorem dropWhile_eq_trailing (hsorted : log.Pairwise (· ≤ ·)) (hle : ∀ s ∈ log, s ≤ now) :
    (log.dropWhile fun s => s ≤ now - w) = trailing w now log := by
  induction log with
  | nil => rfl
  | cons a log ih =>
    obtain ⟨hhead, htail⟩ := List.pairwise_cons.mp hsorted
    by_cases hold : a ≤ now - w
    · have hdrop : ¬ (now - w < a ∧ a ≤ now) := fun h => absurd h.1 (not_lt.mpr hold)
      have hold' : decide (a ≤ now - w) = true := decide_eq_true hold
      have hdrop' : ¬ decide (now - w < a ∧ a ≤ now) = true := by rwa [decide_eq_true_eq]
      rw [List.dropWhile_cons, if_pos hold', trailing, List.filter_cons, if_neg hdrop']
      exact ih htail fun s hs => hle s (List.mem_cons_of_mem _ hs)
    · have hold' : ¬ decide (a ≤ now - w) = true := by rwa [decide_eq_true_eq]
      rw [List.dropWhile_cons, if_neg hold', trailing]
      refine (List.filter_eq_self.mpr fun s hs => decide_eq_true ⟨?_, hle s hs⟩).symm
      rcases List.mem_cons.mp hs with rfl | hs
      · exact not_le.mp hold
      · exact (not_le.mp hold).trans_le (hhead s hs)

variable [IsOrderedAddMonoid T]

/-- **What an earlier window dropped, a later one would have dropped.** -/
theorem trailing_trailing (hle : ∀ s ∈ log, s ≤ now) (hnow : now ≤ now') :
    trailing w now' (trailing w now log) = trailing w now' log := by
  rw [trailing, trailing, List.filter_filter, trailing]
  refine List.filter_congr fun s hs => ?_
  have hs' : s ≤ now := hle s hs
  have hlt : now' - w < s → now - w < s := fun h => (sub_le_sub_right hnow w).trans_lt h
  rw [← Bool.decide_and, decide_eq_decide]
  constructor
  · exact And.left
  · exact fun h => ⟨h, hlt h.1, hs'⟩

/-- What was recorded now is in the window that ends now. -/
theorem trailing_record (hw : 0 < w) (n : ℕ) :
    trailing w now (record log now n) = record (trailing w now log) now n := by
  have hnow : trailing w now (List.replicate n now) = List.replicate n now := by
    refine List.filter_eq_self.mpr fun s hs => decide_eq_true ?_
    rw [List.eq_of_mem_replicate hs]
    exact ⟨sub_lt_self now hw, le_rfl⟩
  rw [record, trailing_append, hnow, record]

theorem narrow_ico (a : T) : Narrow w fun s => a ≤ s ∧ s < a + w := by
  intro s t hs ht
  rw [decide_eq_true_eq] at hs ht
  calc t - s ≤ t - a := sub_le_sub_left hs.1 t
    _ < w := sub_lt_iff_lt_add'.mpr ht.2

theorem narrow_ioc (a : T) : Narrow w fun s => a < s ∧ s ≤ a + w := by
  intro s t hs ht
  rw [decide_eq_true_eq] at hs ht
  calc t - s < t - a := sub_lt_sub_left hs.1 t
    _ ≤ w := sub_le_iff_le_add'.mpr ht.2

/-- **The bound on what is recorded now is one on every narrow interval.** -/
theorem countP_record_le {I : T → Bool} {n bound : ℕ} (hI : Narrow w I)
    (hle : ∀ s ∈ log, s ≤ now) (hbound : log.countP I ≤ bound)
    (hnow : (trailing w now log).length + n ≤ bound) : (record log now n).countP I ≤ bound := by
  rw [record, List.countP_append]
  cases hin : I now with
  | false =>
    have hnone : (List.replicate n now).countP I = 0 := by
      refine List.countP_eq_zero.mpr fun s hs => ?_
      rw [List.eq_of_mem_replicate hs, hin]
      exact Bool.false_ne_true
    rw [hnone]
    exact hbound
  | true =>
    have hwindow : log.countP I ≤ (trailing w now log).length := by
      rw [trailing, ← List.countP_eq_length_filter]
      refine List.countP_mono_left fun s hs hs' => decide_eq_true ⟨?_, hle s hs⟩
      exact sub_lt_comm.mp (hI s now hs' hin)
    have hnew : (List.replicate n now).countP I ≤ n := by
      calc (List.replicate n now).countP I ≤ (List.replicate n now).length := List.countP_le_length
        _ = n := List.length_replicate
    omega

end TrailingWindow
