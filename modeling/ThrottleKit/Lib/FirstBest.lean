import Mathlib.Data.List.Pairwise
import Mathlib.Order.Lattice
import Mathlib.Tactic.Common

/-!
# The first best element of a list

A loop over a list keeps the best element so far, and gives it up only for one that is better. It
ends with a best element, and with the first of them.

Two such loops over one list may compare their elements by values of which one is coarser than the
other, as when numbers are rounded. The coarser loop then never ends later than the finer one; they
end with the same element just where none before it is as good by the coarser values.

## Main definitions

* `firstBest` — the loop
* `IsFirstBest` — the first of the best elements, in a list that is ordered by a rank

## Main results

* `isFirstBest_firstBest` — what the loop ends with
* `firstBest_eq_firstBest_iff` — when a coarser comparison ends with the same element
-/

variable {α β γ δ : Type*}

/-- The first element of `x :: xs` that no later one is better than. -/
def firstBest (better : α → α → Bool) (x : α) (xs : List α) : α :=
  xs.foldl (fun b r => if better r b then r else b) x

theorem firstBest_cons (better : α → α → Bool) (x y : α) (xs : List α) :
    firstBest better x (y :: xs) = firstBest better (if better y x then y else x) xs := rfl

/-- A comparison of what the elements are sent to. -/
theorem firstBest_map (better : β → β → Bool) (g : α → β) (x : α) (xs : List α) :
    firstBest better (g x) (xs.map g) = g (firstBest (fun r b => better (g r) (g b)) x xs) := by
  induction xs generalizing x with
  | nil => rfl
  | cons y xs ih =>
    rw [List.map_cons, firstBest_cons, firstBest_cons, ← ih, apply_ite g]

theorem firstBest_mem (better : α → α → Bool) (x : α) (xs : List α) :
    firstBest better x xs ∈ x :: xs := by
  induction xs generalizing x with
  | nil => exact List.mem_cons_self
  | cons y xs ih =>
    rw [firstBest_cons]
    split
    · exact List.mem_cons_of_mem _ (ih y)
    · rcases List.mem_cons.mp (ih x) with h | h
      · exact List.mem_cons.mpr (.inl h)
      · exact List.mem_cons_of_mem _ (List.mem_cons_of_mem _ h)

section Ranked

variable [LinearOrder β] [LinearOrder γ] (rank : α → ℕ) (f : α → β)

/-- The element is the first of those with the least value. -/
structure IsFirstBest (l : List α) (b : α) : Prop where
  mem : b ∈ l
  le : ∀ y ∈ l, f b ≤ f y
  lt : ∀ y ∈ l, rank y < rank b → f b < f y

variable {rank f} {better : α → α → Bool} {x : α} {xs l : List α}

/-- The loop ends with a best element. -/
theorem firstBest_le (hbetter : ∀ r b, better r b = true ↔ f r < f b) :
    ∀ y ∈ x :: xs, f (firstBest better x xs) ≤ f y := by
  induction xs generalizing x with
  | nil =>
    intro y hy
    rw [List.mem_singleton.mp hy]
    exact le_rfl
  | cons z xs ih =>
    rw [firstBest_cons]
    by_cases hlt : f z < f x
    · rw [if_pos ((hbetter z x).mpr hlt)]
      refine List.forall_mem_cons.mpr ⟨?_, ih⟩
      exact (ih z List.mem_cons_self).trans hlt.le
    · rw [if_neg fun h => hlt ((hbetter z x).mp h)]
      obtain ⟨hx, hxs⟩ := List.forall_mem_cons.mp ih
      exact List.forall_mem_cons.mpr
        ⟨hx, List.forall_mem_cons.mpr ⟨hx.trans (not_lt.mp hlt), hxs⟩⟩

/-- **The loop ends with the first of the best elements.** -/
theorem isFirstBest_firstBest (hbetter : ∀ r b, better r b = true ↔ f r < f b)
    (hrank : (x :: xs).Pairwise fun y z => rank y < rank z) :
    IsFirstBest rank f (x :: xs) (firstBest better x xs) := by
  induction xs generalizing x with
  | nil =>
    refine ⟨List.mem_cons_self, fun y hy => ?_, fun y hy hlt => ?_⟩
    · rw [List.mem_singleton.mp hy]
      exact le_rfl
    · rw [List.mem_singleton.mp hy] at hlt
      exact absurd hlt (Nat.lt_irrefl _)
  | cons y xs ih =>
    obtain ⟨hx, hys⟩ := List.pairwise_cons.mp hrank
    obtain ⟨hy, hxs⟩ := List.pairwise_cons.mp hys
    have hmem : firstBest better x (y :: xs) ∈ x :: y :: xs := firstBest_mem better x (y :: xs)
    rw [firstBest_cons] at hmem ⊢
    by_cases hlt : f y < f x
    · rw [if_pos ((hbetter y x).mpr hlt)] at hmem ⊢
      obtain ⟨-, hle, hstrict⟩ := ih hys
      have hbelow : f (firstBest better y xs) < f x := (hle y List.mem_cons_self).trans_lt hlt
      refine ⟨hmem, fun z hz => ?_, fun z hz hlow => ?_⟩
      · rcases List.mem_cons.mp hz with rfl | hz
        · exact hbelow.le
        · exact hle z hz
      · rcases List.mem_cons.mp hz with rfl | hz
        · exact hbelow
        · exact hstrict z hz hlow
    · have hskip : (x :: xs).Pairwise fun y z => rank y < rank z :=
        List.pairwise_cons.mpr ⟨fun z hz => hx z (List.mem_cons_of_mem _ hz), hxs⟩
      rw [if_neg fun h => hlt ((hbetter y x).mp h)] at hmem ⊢
      obtain ⟨-, hle, hstrict⟩ := ih hskip
      have hxy : f x ≤ f y := not_lt.mp hlt
      refine ⟨hmem, fun z hz => ?_, fun z hz hlow => ?_⟩
      · rcases List.mem_cons.mp hz with rfl | hz
        · exact hle z List.mem_cons_self
        · rcases List.mem_cons.mp hz with rfl | hz
          · exact (hle x List.mem_cons_self).trans hxy
          · exact hle z (List.mem_cons_of_mem _ hz)
      · rcases List.mem_cons.mp hz with rfl | hz
        · exact hstrict z List.mem_cons_self hlow
        · rcases List.mem_cons.mp hz with rfl | hz
          · -- what comes after `z` in the list comes after `x` as well
            have hxz : rank x < rank z := hx z List.mem_cons_self
            exact (hstrict x List.mem_cons_self (Nat.lt_trans hxz hlow)).trans_le hxy
          · exact hstrict z (List.mem_cons_of_mem _ hz) hlow

/-- There is one first of the best elements. -/
theorem IsFirstBest.unique {b b' : α} (h : IsFirstBest rank f l b) (h' : IsFirstBest rank f l b')
    (hrank : l.Pairwise fun y z => rank y < rank z) : b = b' := by
  have hle : ∀ c c', IsFirstBest rank f l c → IsFirstBest rank f l c' → rank c' ≤ rank c := by
    intro c c' hc hc'
    by_contra hlt
    exact absurd (hc'.lt c hc.mem (Nat.lt_of_not_le hlt)) (not_lt.mpr (hc.le c' hc'.mem))
  have hsame : rank b = rank b' := Nat.le_antisymm (hle b' b h' h) (hle b b' h h')
  by_contra hne
  have hapart : l.Pairwise fun y z => rank y ≠ rank z := hrank.imp Nat.ne_of_lt
  have hsymm : Std.Symm fun y z => rank y ≠ rank z := ⟨fun _ _ h => h.symm⟩
  exact hapart.forall h.mem h'.mem hne hsame

/-- **When a coarser comparison ends with the same element**: no earlier element is as good as it by
the coarser values. -/
theorem firstBest_eq_firstBest_iff {g : α → γ} {better' : α → α → Bool}
    (hbetter : ∀ r b, better r b = true ↔ f r < f b)
    (hbetter' : ∀ r b, better' r b = true ↔ g r < g b)
    (hmono : ∀ y ∈ x :: xs, ∀ z ∈ x :: xs, f y ≤ f z → g y ≤ g z)
    (hrank : (x :: xs).Pairwise fun y z => rank y < rank z) :
    firstBest better x xs = firstBest better' x xs ↔
      ∀ y ∈ x :: xs, rank y < rank (firstBest better x xs) → g y ≠ g (firstBest better x xs) := by
  have hfine := isFirstBest_firstBest hbetter hrank
  have hcoarse := isFirstBest_firstBest hbetter' hrank
  constructor
  · intro h y hy hlt
    rw [h] at hlt ⊢
    exact (hcoarse.lt y hy hlt).ne'
  · intro h
    have hle : ∀ y ∈ x :: xs, g (firstBest better x xs) ≤ g y := fun y hy =>
      hmono _ hfine.mem y hy (hfine.le y hy)
    refine IsFirstBest.unique ⟨hfine.mem, hle, fun y hy hlt => ?_⟩ hcoarse hrank
    exact lt_of_le_of_ne (hle y hy) (h y hy hlt).symm

end Ranked
