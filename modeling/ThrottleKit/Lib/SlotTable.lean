import Mathlib.Data.Finset.Card
import Mathlib.Data.List.Dedup
import Mathlib.Data.List.Nodup
import Mathlib.Logic.Function.Basic
import Mathlib.Tactic.Common

/-!
# Slots with a free list

Keys that have a slot each, the slots themselves, some of them empty, and a list of the empty ones.
The three say the same: a key has a slot exactly when the slot has the key, and the list has each
empty slot once.

## Main definitions

* `Consistent` — the three say the same

## Main results

* `Consistent.release`, `Consistent.reuse`, `Consistent.grow`, `Consistent.replace` — a key gives
  its slot up, a key takes an empty slot, a new one, or that of another key
* `Consistent.exists_key` — with no empty slot, every slot has a key
* `Consistent.length_add_length` — the keys and the empty slots make up all the slots
-/

namespace SlotTable

variable {κ : Type*}

/-- The slots of the keys, the slots, and the empty ones. -/
structure Consistent (slotOf : κ → Option ℕ) (ring : List (Option κ)) (free : List ℕ) : Prop where
  slotOf_iff : ∀ k s, slotOf k = some s ↔ ring[s]? = some (some k)
  mem_free : ∀ s, s ∈ free ↔ ring[s]? = some none
  nodup : free.Nodup

variable {slotOf : κ → Option ℕ} {ring : List (Option κ)} {free : List ℕ} {k : κ} {s : ℕ}

theorem consistent_nil : Consistent (fun _ : κ => none) [] [] where
  slotOf_iff k s := by simp
  mem_free s := by simp
  nodup := List.nodup_nil

namespace Consistent

theorem lt_length (h : Consistent slotOf ring free) (hk : slotOf k = some s) : s < ring.length :=
  (List.getElem?_eq_some_iff.mp ((h.slotOf_iff k s).mp hk)).1

/-- Two keys have different slots. -/
theorem injective (h : Consistent slotOf ring free) {j : κ} (hj : slotOf j = some s)
    (hk : slotOf k = some s) : j = k := by
  have hslot := ((h.slotOf_iff j s).mp hj).symm.trans ((h.slotOf_iff k s).mp hk)
  exact Option.some.inj (Option.some.inj hslot)

/-- With no empty slot, every slot has a key. -/
theorem exists_key (h : Consistent slotOf ring []) (hs : s < ring.length) :
    ∃ k, ring[s]? = some (some k) ∧ slotOf k = some s := by
  cases hslot : ring[s]? with
  | none => exact absurd (List.getElem?_eq_none_iff.mp hslot) (not_le.mpr hs)
  | some o =>
    cases o with
    | none => exact absurd ((h.mem_free s).mpr hslot) List.not_mem_nil
    | some k => exact ⟨k, rfl, (h.slotOf_iff k s).mpr hslot⟩

/-- The keys and the empty slots make up all the slots. -/
theorem length_add_length (h : Consistent slotOf ring free) {keys : List κ} (hnodup : keys.Nodup)
    (hkeys : ∀ k, k ∈ keys ↔ slotOf k ≠ none) : keys.length + free.length = ring.length := by
  have hslots : (keys.filterMap slotOf).length = keys.length := by
    rw [List.length_filterMap_eq_countP, List.countP_eq_length]
    intro k hk
    exact Option.isSome_iff_ne_none.mpr ((hkeys k).mp hk)
  have hunique : (keys.filterMap slotOf).Nodup := by
    refine hnodup.filterMap fun j k s hj hk => ?_
    exact h.injective hj hk
  have hall : (keys.filterMap slotOf ++ free).Nodup := by
    refine List.nodup_append.mpr ⟨hunique, h.nodup, ?_⟩
    rintro s hs t ht rfl
    obtain ⟨k, -, hk⟩ := List.mem_filterMap.mp hs
    rw [h.mem_free, (h.slotOf_iff k s).mp hk] at ht
    cases ht
  have hperm : (keys.filterMap slotOf ++ free).Perm (List.range ring.length) := by
    refine (List.perm_ext_iff_of_nodup hall List.nodup_range).mpr fun s => ?_
    rw [List.mem_append, List.mem_filterMap, List.mem_range, h.mem_free]
    constructor
    · rintro (⟨k, -, hk⟩ | hs)
      · exact h.lt_length hk
      · exact (List.getElem?_eq_some_iff.mp hs).1
    · intro hs
      cases hslot : ring[s]? with
      | none => exact absurd (List.getElem?_eq_none_iff.mp hslot) (not_le.mpr hs)
      | some o =>
        cases o with
        | none => exact .inr rfl
        | some k =>
          have hk := (h.slotOf_iff k s).mpr hslot
          exact .inl ⟨k, (hkeys k).mpr (by rw [hk]; simp), hk⟩
  have hlength := hperm.length_eq
  rwa [List.length_append, hslots, List.length_range] at hlength

variable [DecidableEq κ]

/-- A key gives its slot up. -/
theorem release (h : Consistent slotOf ring free) (hk : slotOf k = some s) :
    Consistent (Function.update slotOf k none) (ring.set s none) (free ++ [s]) where
  slotOf_iff j t := by
    by_cases hj : j = k
    · subst hj
      rw [Function.update_self, List.getElem?_set]
      by_cases hst : s = t
      · subst hst
        simp
      · rw [if_neg hst, ← h.slotOf_iff, hk]
        simp [hst]
    · rw [Function.update_of_ne hj, List.getElem?_set, h.slotOf_iff]
      by_cases hst : s = t
      · subst hst
        have hring := (h.slotOf_iff k s).mp hk
        simp [hring, Ne.symm hj]
      · rw [if_neg hst]
  mem_free t := by
    rw [List.mem_append, List.mem_singleton, List.getElem?_set, h.mem_free]
    by_cases hst : s = t
    · subst hst
      simp [h.lt_length hk]
    · simp [hst, Ne.symm hst]
  nodup := by
    have hfree : s ∉ free := by
      intro hmem
      rw [h.mem_free, (h.slotOf_iff k s).mp hk] at hmem
      cases hmem
    exact List.nodup_append.mpr ⟨h.nodup, by simp, by
      rintro a ha b hb rfl
      exact hfree (List.mem_singleton.mp hb ▸ ha)⟩

/-- A new key takes a slot that no other key has, and that leaves the free list. -/
theorem take {free' : List ℕ} (h : Consistent slotOf ring free) (hk : slotOf k = none)
    (hs : s < ring.length) (hslot : ∀ j, slotOf j ≠ some s)
    (hfree : ∀ t, t ∈ free' ↔ t ∈ free ∧ t ≠ s) (hnodup : free'.Nodup) :
    Consistent (Function.update slotOf k (some s)) (ring.set s (some k)) free' where
  slotOf_iff j t := by
    by_cases hj : j = k
    · subst hj
      rw [Function.update_self, List.getElem?_set]
      by_cases hst : s = t
      · subst hst
        simp [hs]
      · have hnone : ring[t]? ≠ some (some j) := by
          rw [Ne, ← h.slotOf_iff, hk]
          simp
        simp [hst, hnone]
    · rw [Function.update_of_ne hj, List.getElem?_set]
      by_cases hst : s = t
      · subst hst
        simp [hslot j, hs, Ne.symm hj]
      · rw [if_neg hst, h.slotOf_iff]
  mem_free t := by
    rw [hfree, h.mem_free, List.getElem?_set]
    by_cases hst : s = t
    · subst hst
      simp [hs]
    · simp [hst, Ne.symm hst]
  nodup := hnodup

/-- A new key takes the slot that was emptied last. -/
theorem reuse (h : Consistent slotOf ring free) (hk : slotOf k = none)
    (hs : free.getLast? = some s) :
    Consistent (Function.update slotOf k (some s)) (ring.set s (some k)) free.dropLast := by
  obtain ⟨rest, rfl⟩ := List.getLast?_eq_some_iff.mp hs
  have hempty : ring[s]? = some none := (h.mem_free s).mp (by simp)
  have hrest := List.nodup_append.mp h.nodup
  refine h.take hk (List.getElem?_eq_some_iff.mp hempty).1 (fun j hj => ?_) (fun t => ?_) ?_
  · rw [h.slotOf_iff, hempty] at hj
    cases hj
  · rw [List.dropLast_concat, List.mem_append, List.mem_singleton]
    constructor
    · intro ht
      exact ⟨.inl ht, hrest.2.2 t ht s (List.mem_singleton_self s)⟩
    · rintro ⟨ht | ht, hne⟩
      · exact ht
      · exact absurd ht hne
  · rw [List.dropLast_concat]
    exact hrest.1

/-- A new key takes a new slot. -/
theorem grow (h : Consistent slotOf ring free) (hk : slotOf k = none) :
    Consistent (Function.update slotOf k (some ring.length)) (ring ++ [some k]) free where
  slotOf_iff j t := by
    have hlast : ∀ i, slotOf i ≠ some ring.length := fun i hi => absurd (h.lt_length hi) (by simp)
    rcases lt_trichotomy t ring.length with hlt | heq | hgt
    · rw [List.getElem?_append_left hlt, ← h.slotOf_iff]
      by_cases hj : j = k
      · subst hj
        simp [hk, Nat.ne_of_gt hlt]
      · rw [Function.update_of_ne hj]
    · subst heq
      by_cases hj : j = k
      · subst hj
        simp
      · simp [Function.update_of_ne hj, hlast j, Ne.symm hj]
    · have hnone : (ring ++ [some k])[t]? = none := by
        rw [List.getElem?_eq_none_iff, List.length_append, List.length_singleton]
        omega
      rw [hnone]
      by_cases hj : j = k
      · subst hj
        simp [Nat.ne_of_lt hgt]
      · rw [Function.update_of_ne hj]
        constructor
        · intro hj'
          exact absurd (h.lt_length hj') (by omega)
        · intro hcontra
          cases hcontra
  mem_free t := by
    rw [h.mem_free]
    rcases lt_or_ge t ring.length with hlt | hge
    · rw [List.getElem?_append_left hlt]
    · rw [List.getElem?_append_right hge, List.getElem?_eq_none hge]
      cases htl : t - ring.length <;> simp
  nodup := h.nodup

/-- A new key takes the slot of another. -/
theorem replace (h : Consistent slotOf ring free) {j : κ} (hj : slotOf j = some s)
    (hk : slotOf k = none) :
    Consistent (Function.update (Function.update slotOf j none) k (some s))
      (ring.set s (some k)) free := by
  have hrelease := h.release hj
  have hkj : k ≠ j := by
    rintro rfl
    rw [hk] at hj
    cases hj
  have hfree : s ∉ free := by
    intro hmem
    rw [h.mem_free, (h.slotOf_iff j s).mp hj] at hmem
    cases hmem
  have htake := @take _ _ _ _ k s _ free hrelease
    (by rw [Function.update_of_ne hkj, hk]) (by simpa using h.lt_length hj) (fun i hi => ?_)
    (fun t => ?_) h.nodup
  · rwa [List.set_set] at htake
  · by_cases hij : i = j
    · subst hij
      rw [Function.update_self] at hi
      cases hi
    · rw [Function.update_of_ne hij] at hi
      exact hij (h.injective hi hj)
  · rw [List.mem_append, List.mem_singleton]
    constructor
    · intro ht
      exact ⟨.inl ht, fun heq => hfree (heq ▸ ht)⟩
    · rintro ⟨ht | ht, hne⟩
      · exact ht
      · exact absurd ht hne

end Consistent

end SlotTable
