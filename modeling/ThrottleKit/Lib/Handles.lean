import Mathlib.Algebra.BigOperators.Ring.Finset
import Mathlib.Data.List.Count
import Mathlib.Data.List.Nodup
import Mathlib.Tactic.Common

/-!
# Handles to the elements of a list

A table refers to elements of a list by their positions, at most once to each. If what it refers to
with a `p`-entry is just what satisfies `q`, there are as many `p`-entries as elements with `q`.

## Main results

* `countP_eq_of_handles` — counting elements by their handles
* `sum_update` — a sum over a family, when one member is written
-/

namespace Handles

variable {α β : Type*}

/-- The positions of a list whose elements satisfy `q`. -/
def positions (q : α → Bool) (l : List α) : List ℕ :=
  (List.range l.length).filter fun i => l[i]?.any q

theorem mem_positions {q : α → Bool} {l : List α} {i : ℕ} :
    i ∈ positions q l ↔ ∃ a, l[i]? = some a ∧ q a = true := by
  unfold positions
  rw [List.mem_filter, List.mem_range]
  constructor
  · rintro ⟨hlt, hany⟩
    rw [List.getElem?_eq_getElem hlt] at hany ⊢
    exact ⟨_, rfl, hany⟩
  · rintro ⟨a, hget, hq⟩
    refine ⟨(List.getElem?_eq_some_iff.mp hget).1, ?_⟩
    rw [hget]
    exact hq

theorem nodup_positions (q : α → Bool) (l : List α) : (positions q l).Nodup :=
  List.nodup_range.filter _

theorem length_positions (q : α → Bool) (l : List α) : (positions q l).length = l.countP q := by
  unfold positions
  induction l using List.reverseRecOn with
  | nil => rfl
  | append_singleton l a ih =>
    have hold : (List.range l.length).filter (fun i => (l ++ [a])[i]?.any q)
        = (List.range l.length).filter fun i => l[i]?.any q := by
      refine List.filter_congr fun i hi => ?_
      rw [List.getElem?_append_left (List.mem_range.mp hi)]
    rw [List.length_append, List.length_singleton, List.range_succ, List.filter_append, hold,
      List.length_append, ih, List.countP_append]
    congr 1
    cases hq : q a <;> simp [hq]

/-- **Counting by handles.** -/
theorem countP_eq_of_handles {l : List α} {m : List β} {q : α → Bool} {p : β → Bool} {pos : β → ℕ}
    (hinj : (m.map pos).Nodup) (hpos : ∀ b ∈ m, p b = true → ∃ a, l[pos b]? = some a ∧ q a = true)
    (hhandle : ∀ i a, l[i]? = some a → q a = true → ∃ b ∈ m, p b = true ∧ pos b = i) :
    l.countP q = m.countP p := by
  have hnodup : ((m.filter p).map pos).Nodup := hinj.sublist (List.filter_sublist.map pos)
  have hperm : (positions q l).Perm ((m.filter p).map pos) := by
    refine (List.perm_ext_iff_of_nodup (nodup_positions q l) hnodup).mpr fun i => ?_
    rw [mem_positions, List.mem_map]
    constructor
    · rintro ⟨a, hget, hq⟩
      obtain ⟨b, hb, hp, rfl⟩ := hhandle i a hget hq
      exact ⟨b, List.mem_filter.mpr ⟨hb, hp⟩, rfl⟩
    · rintro ⟨b, hb, rfl⟩
      obtain ⟨hmem, hp⟩ := List.mem_filter.mp hb
      exact hpos b hmem hp
  rw [← length_positions, hperm.length_eq, List.length_map, List.countP_eq_length_filter]

/-- The sum over a family, when one member is written. -/
theorem sum_update {ι M : Type*} [Fintype ι] [DecidableEq ι] [AddCommGroup M] (f : ι → β)
    (w : β → M) (i : ι) (x : β) :
    ∑ j, w (Function.update f i x j) = ∑ j, w (f j) - w (f i) + w x := by
  have hrest : ∑ j ∈ Finset.univ.erase i, w (Function.update f i x j)
      = ∑ j ∈ Finset.univ.erase i, w (f j) := by
    refine Finset.sum_congr rfl fun j hj => ?_
    rw [Function.update_of_ne (Finset.ne_of_mem_erase hj)]
  rw [← Finset.add_sum_erase _ _ (Finset.mem_univ i), hrest, Function.update_self,
    ← Finset.add_sum_erase Finset.univ (fun j => w (f j)) (Finset.mem_univ i),
    add_sub_cancel_left, add_comm]

end Handles
