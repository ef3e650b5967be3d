import Mathlib.Algebra.BigOperators.Group.List.Basic
import Mathlib.Data.List.GetD
import Mathlib.Tactic.Common

/-!
# Arrays as lists

An array that is read and written at an index it has is a list; what is read past the end is zero.

## Main definitions

* `entry` — the entry at an index

## Main results

* `entry_set`, `entry_foldl_set` — what writing changes
* `map_entry_range`, `sum_set` — an array is its entries, and what writing one does to their sum
-/

namespace ListEntries

variable {α : Type} [Zero α]

/-- The entry of an array at an index that it has. -/
def entry (xs : List α) (i : ℕ) : α := xs.getD i 0

theorem entry_set (xs : List α) {i : ℕ} (hi : i < xs.length) (x : α) (j : ℕ) :
    entry (xs.set i x) j = if j = i then x else entry xs j := by
  rw [entry, entry, List.getD_eq_getElem?_getD, List.getD_eq_getElem?_getD, List.getElem?_set]
  by_cases hji : j = i
  · rw [if_pos hji.symm, if_pos hi, if_pos hji]
    rfl
  · rw [if_neg (Ne.symm hji), if_neg hji]

theorem entry_map {β : Type} [Zero β] (f : α → β) (hf : f 0 = 0) (xs : List α) (i : ℕ) :
    entry (xs.map f) i = f (entry xs i) := by
  rw [entry, entry, ← hf, List.getD_map]

theorem entry_mem {xs : List α} {i : ℕ} (hi : i < xs.length) : entry xs i ∈ xs := by
  rw [entry, List.getD_eq_getElem _ _ hi]
  exact List.getElem_mem hi

theorem map_entry_range (xs : List α) : (List.range xs.length).map (entry xs) = xs := by
  refine List.ext_getElem (by simp) fun i hi hi' => ?_
  rw [List.getElem_map, List.getElem_range, entry, List.getD_eq_getElem _ _ hi']

omit [Zero α] in
theorem length_foldl_set (f : ℕ → α) (l : List ℕ) (xs : List α) :
    (l.foldl (fun xs m => xs.set m (f m)) xs).length = xs.length := by
  induction l generalizing xs with
  | nil => rfl
  | cons i l ih => rw [List.foldl_cons, ih, List.length_set]

/-- Writing the entries of a list of indices. -/
theorem entry_foldl_set (f : ℕ → α) (l : List ℕ) (xs : List α) (hl : ∀ i ∈ l, i < xs.length)
    (j : ℕ) :
    entry (l.foldl (fun xs m => xs.set m (f m)) xs) j = if j ∈ l then f j else entry xs j := by
  induction l generalizing xs with
  | nil => rfl
  | cons i l ih =>
    have hi : i < xs.length := hl i List.mem_cons_self
    rw [List.foldl_cons, ih _ fun k hk => by
      rw [List.length_set]
      exact hl k (List.mem_cons_of_mem _ hk)]
    by_cases hmem : j ∈ l
    · rw [if_pos hmem, if_pos (List.mem_cons_of_mem _ hmem)]
    · rw [if_neg hmem, entry_set xs hi]
      by_cases hji : j = i
      · rw [if_pos hji, if_pos (hji ▸ List.mem_cons_self), hji]
      · rw [if_neg hji, if_neg fun h => (List.mem_cons.mp h).elim hji hmem]

theorem sum_set {β : Type} [AddCommGroup β] (xs : List β) {i : ℕ} (hi : i < xs.length) (x : β) :
    (xs.set i x).sum = xs.sum + (x - entry xs i) := by
  rw [List.sum_set', dif_pos hi, entry, List.getD_eq_getElem _ _ hi, neg_add_eq_sub]

end ListEntries
