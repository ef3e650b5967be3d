import Mathlib.Data.List.Nodup
import Mathlib.Data.List.Sort

/-!
# Keyed lists in order

A list of entries that have different keys is determined, up to its order, by what is found at each
key. Sorted by the keys it is determined altogether, so that two such lists are sorted to the same
list exactly when they hold the same entries.

## Main results

* `perm_iff_lookup` — the same entries in any order
* `insertionSort_eq_iff` — sorting forgets the order and nothing else
-/

namespace KeyedSort

variable {α κ ν : Type*}

/-- **Sorting by an order that tells the elements apart forgets how they stood and nothing else.**
-/
theorem insertionSort_eq_iff {r : α → α → Prop} [DecidableRel r] [Std.Total r] [IsTrans α r]
    {l l' : List α} (hr : ∀ a ∈ l, ∀ b ∈ l, r a b → r b a → a = b) :
    l.insertionSort r = l'.insertionSort r ↔ l.Perm l' := by
  have hperm (l : List α) : (l.insertionSort r).Perm l := List.perm_insertionSort r l
  constructor
  · intro h
    exact (hperm l).symm.trans (h ▸ hperm l')
  · intro h
    refine List.Perm.eq_of_pairwise (fun a b ha hb => ?_) (List.pairwise_insertionSort r l)
      (List.pairwise_insertionSort r l') ((hperm l).trans (h.trans (hperm l').symm))
    exact hr a ((hperm l).mem_iff.mp ha) b (h.mem_iff.mpr ((hperm l').mem_iff.mp hb))

section Lookup

variable [BEq κ] {l l' : List (κ × ν)}

theorem lookup_map_snd {ν' : Type*} (f : ν → ν') (l : List (κ × ν)) (k : κ) :
    (l.map fun e => (e.1, f e.2)).lookup k = (l.lookup k).map f := by
  induction l with
  | nil => rfl
  | cons e l ih =>
    rw [List.map_cons, List.lookup_cons, List.lookup_cons]
    cases k == e.1 with
    | true => rfl
    | false => exact ih

/-- What is found at a key is made of the first element of that key. -/
theorem lookup_map {key : α → κ} (f : α → ν) (l : List α) (k : κ) :
    (l.map fun a => (key a, f a)).lookup k = (l.find? fun a => k == key a).map f := by
  induction l with
  | nil => rfl
  | cons a l ih =>
    rw [List.map_cons, List.lookup_cons, List.find?_cons]
    cases k == key a with
    | true => rfl
    | false => exact ih

variable [LawfulBEq κ]

theorem lookup_eq_some_iff (hl : (l.map Prod.fst).Nodup) {k : κ} {v : ν} :
    l.lookup k = some v ↔ (k, v) ∈ l := by
  induction l with
  | nil => simp
  | cons e l ih =>
    obtain ⟨k', v'⟩ := e
    rw [List.map_cons, List.nodup_cons] at hl
    by_cases hk : k = k'
    · subst hk
      rw [List.lookup_cons_self, List.mem_cons, Option.some.injEq, Prod.mk.injEq]
      constructor
      · rintro rfl
        exact .inl ⟨rfl, rfl⟩
      · rintro (⟨-, rfl⟩ | hmem)
        · rfl
        · exact absurd (List.mem_map_of_mem hmem) hl.1
    · have hbeq : (k == k') = false := by simpa using hk
      rw [List.lookup_cons, hbeq, List.mem_cons]
      simp only [ih hl.2, Prod.mk.injEq, hk, false_and, false_or]

/-- **Two keyed lists hold the same entries exactly when they have the same at each key.** -/
theorem perm_iff_lookup (hl : (l.map Prod.fst).Nodup) (hl' : (l'.map Prod.fst).Nodup) :
    l.Perm l' ↔ ∀ k, l.lookup k = l'.lookup k := by
  have hmem : l.Perm l' ↔ ∀ e, e ∈ l ↔ e ∈ l' :=
    List.perm_ext_iff_of_nodup (.of_map _ hl) (.of_map _ hl')
  rw [hmem]
  constructor
  · intro h k
    refine Option.ext fun v => ?_
    rw [lookup_eq_some_iff hl, lookup_eq_some_iff hl', h]
  · rintro h ⟨k, v⟩
    rw [← lookup_eq_some_iff hl, ← lookup_eq_some_iff hl', h]

end Lookup

end KeyedSort
