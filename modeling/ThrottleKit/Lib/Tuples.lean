import Mathlib

/-!
# Pairs and triples of a list

The pairs that two nested loops visit, and the triples that three visit: entries of a list in the
order of their places.

## Main definitions

* `pairs`, `triples` — pairs and triples in the order of the loops

## Main results

* `mem_pairs`, `mem_triples` — two or three entries in the order of their places
* `mem_of_mem_pairs`, `rel_of_mem_pairs` — what a pair is made of
* `exists_lt_lt` — three different places come in some order
-/

namespace Tuples

variable {α : Type*}

/-- Every entry with every later one. -/
def pairs : List α → List (α × α)
  | [] => []
  | x :: xs => xs.map (x, ·) ++ pairs xs

/-- Every entry with every two later ones. -/
def triples : List α → List (α × α × α)
  | [] => []
  | x :: xs => (pairs xs).map (x, ·) ++ triples xs

theorem mem_pairs {l : List α} {x y : α} {i j : ℕ} (hx : l[i]? = some x) (hy : l[j]? = some y)
    (h : i < j) : (x, y) ∈ pairs l := by
  induction l generalizing i j with
  | nil => cases hx
  | cons z l ih =>
    obtain ⟨j, rfl⟩ : ∃ j', j = j' + 1 := Nat.exists_eq_add_one_of_ne_zero (by omega)
    rw [pairs, List.mem_append]
    cases i with
    | zero =>
      obtain rfl := Option.some.inj hx
      exact .inl (List.mem_map_of_mem (List.mem_of_getElem? hy))
    | succ i => exact .inr (ih hx hy (by omega))

theorem mem_of_mem_pairs {l : List α} {x y : α} (h : (x, y) ∈ pairs l) : x ∈ l ∧ y ∈ l := by
  induction l with
  | nil => cases h
  | cons z l ih =>
    rw [pairs, List.mem_append] at h
    rcases h with h | h
    · obtain ⟨w, hw, heq⟩ := List.mem_map.mp h
      obtain ⟨rfl, rfl⟩ := Prod.mk.inj heq
      exact ⟨List.mem_cons_self, List.mem_cons_of_mem _ hw⟩
    · exact ⟨List.mem_cons_of_mem _ (ih h).1, List.mem_cons_of_mem _ (ih h).2⟩

/-- What holds of every entry and every later one. -/
theorem rel_of_mem_pairs {R : α → α → Prop} {l : List α} (hl : l.Pairwise R) {x y : α}
    (h : (x, y) ∈ pairs l) : R x y := by
  induction l with
  | nil => cases h
  | cons z l ih =>
    obtain ⟨hz, hl⟩ := List.pairwise_cons.mp hl
    rw [pairs, List.mem_append] at h
    rcases h with h | h
    · obtain ⟨w, hw, heq⟩ := List.mem_map.mp h
      obtain ⟨rfl, rfl⟩ := Prod.mk.inj heq
      exact hz _ hw
    · exact ih hl h

theorem mem_triples {l : List α} {x y z : α} {i j k : ℕ} (hx : l[i]? = some x)
    (hy : l[j]? = some y) (hz : l[k]? = some z) (hij : i < j) (hjk : j < k) :
    (x, y, z) ∈ triples l := by
  induction l generalizing i j k with
  | nil => cases hx
  | cons v l ih =>
    obtain ⟨j, rfl⟩ : ∃ j', j = j' + 1 := Nat.exists_eq_add_one_of_ne_zero (by omega)
    obtain ⟨k, rfl⟩ : ∃ k', k = k' + 1 := Nat.exists_eq_add_one_of_ne_zero (by omega)
    rw [triples, List.mem_append]
    cases i with
    | zero =>
      obtain rfl := Option.some.inj hx
      exact .inl (List.mem_map_of_mem (mem_pairs hy hz (by omega)))
    | succ i => exact .inr (ih hx hy hz (by omega) (by omega))

/-- Three different places of which something holds, whatever their order, come in some order. -/
theorem exists_lt_lt {β : Type*} [LinearOrder β] {P : β → β → β → Prop} {i j k : β}
    (hswap : ∀ {i j k}, P i j k → P j i k) (hrotate : ∀ {i j k}, P i j k → P j k i)
    (hne : ∀ {i j k}, P i j k → i ≠ j) (h : P i j k) : ∃ i j k, i < j ∧ j < k ∧ P i j k := by
  have hij : i ≠ j := hne h
  have hjk : j ≠ k := hne (hrotate h)
  have hki : k ≠ i := hne (hrotate (hrotate h))
  rcases lt_or_gt_of_ne hij with h1 | h1
  · rcases lt_or_gt_of_ne hjk with h2 | h2
    · exact ⟨i, j, k, h1, h2, h⟩
    · rcases lt_or_gt_of_ne hki with h3 | h3
      · exact ⟨k, i, j, h3, h1, hrotate (hrotate h)⟩
      · exact ⟨i, k, j, h3, h2, hswap (hrotate (hrotate h))⟩
  · rcases lt_or_gt_of_ne hjk with h2 | h2
    · rcases lt_or_gt_of_ne hki with h3 | h3
      · exact ⟨j, k, i, h2, h3, hrotate h⟩
      · exact ⟨j, i, k, h1, h3, hswap h⟩
    · exact ⟨k, j, i, h2, h1, hswap (hrotate h)⟩

end Tuples
