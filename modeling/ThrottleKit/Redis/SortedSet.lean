import Mathlib.Data.List.Nodup
import Mathlib.Data.List.Sort
import Mathlib.Data.Rat.Floor
import Mathlib.Tactic.Common

/-!
# Sorted sets of a Redis server

A sorted set has a score for each of its members. Adding a member that is there only moves it to the
new score, so that what is added is counted just where its name is new.

## Main definitions

* `SortedSet`, with `zadd`, `zremrangebyscore`, `zcard` and `zrange`

## Main results

* `elements_zaddAll` — members with new names are all added
-/

namespace ThrottleKit.Redis

/-- A sorted set: its members, each with its score. -/
structure SortedSet (M : Type) where
  elements : List (M × ℚ)
  distinct : (elements.map Prod.fst).Nodup

namespace SortedSet

variable {M : Type}

/-- The set of a key that is not there. -/
def empty : SortedSet M := ⟨[], .nil⟩

/-- The members. -/
def members (z : SortedSet M) : List M := z.elements.map Prod.fst

/-- The scores of the members. -/
def scores (z : SortedSet M) : List ℚ := z.elements.map Prod.snd

/-- `ZCARD key`. -/
def zcard (z : SortedSet M) : ℕ := z.elements.length

/-- `ZREMRANGEBYSCORE key -inf max`. -/
def zremrangebyscore (z : SortedSet M) (max : ℚ) : SortedSet M where
  elements := z.elements.filter fun element => max < element.2
  distinct := z.distinct.sublist (List.filter_sublist.map Prod.fst)

/-- `ZADD key score member`. -/
def zadd [DecidableEq M] (z : SortedSet M) (score : ℚ) (member : M) : SortedSet M where
  elements := (z.elements.filter fun element => element.1 ≠ member) ++ [(member, score)]
  distinct := by
    rw [List.map_append, List.nodup_append]
    refine ⟨z.distinct.sublist (List.filter_sublist.map Prod.fst), List.nodup_singleton _, ?_⟩
    intro m hm m' hm'
    obtain ⟨element, helement, rfl⟩ := List.mem_map.mp hm
    rw [List.mem_singleton.mp hm']
    exact of_decide_eq_true (List.mem_filter.mp helement).2

/-- `ZRANGE key i i WITHSCORES`: the score at the `i`th place, in ascending order. -/
def zrange (z : SortedSet M) (i : ℕ) : Option ℚ := (z.scores.insertionSort (· ≤ ·))[i]?

/-- One `ZADD` after the other. -/
def zaddAll [DecidableEq M] (z : SortedSet M) (score : ℚ) (names : List M) : SortedSet M :=
  names.foldl (fun z name => z.zadd score name) z

@[simp] theorem scores_empty : (empty : SortedSet M).scores = [] := rfl

theorem length_scores (z : SortedSet M) : z.scores.length = z.zcard := List.length_map _

theorem scores_zremrangebyscore (z : SortedSet M) (max : ℚ) :
    (z.zremrangebyscore max).scores = z.scores.filter fun s => max < s := by
  rw [scores, scores, List.filter_map]
  rfl

variable [DecidableEq M]

/-- A member with a new name is added. -/
theorem elements_zadd {z : SortedSet M} {score : ℚ} {name : M} (h : name ∉ z.members) :
    (z.zadd score name).elements = z.elements ++ [(name, score)] := by
  show (z.elements.filter fun element => element.1 ≠ name) ++ _ = _
  congr 1
  refine List.filter_eq_self.mpr fun element helement => decide_eq_true fun heq => ?_
  rw [← heq] at h
  exact h (List.mem_map_of_mem helement)

/-- **Members with new names are all added.** -/
theorem elements_zaddAll {score : ℚ} {names : List M} (hnodup : names.Nodup) {z : SortedSet M}
    (hnew : ∀ name ∈ names, name ∉ z.members) :
    (z.zaddAll score names).elements = z.elements ++ names.map (·, score) := by
  induction names generalizing z with
  | nil => exact (List.append_nil _).symm
  | cons name names ih =>
    obtain ⟨hname, hnames⟩ := List.nodup_cons.mp hnodup
    have hadd : (z.zadd score name).elements = z.elements ++ [(name, score)] :=
      elements_zadd (hnew name List.mem_cons_self)
    have hnew' : ∀ name' ∈ names, name' ∉ (z.zadd score name).members := by
      intro name' hname' hmem
      rw [members, hadd, List.map_append] at hmem
      rcases List.mem_append.mp hmem with hold | hthis
      · exact hnew name' (List.mem_cons_of_mem _ hname') hold
      · rw [List.mem_singleton.mp hthis] at hname'
        exact hname hname'
    show ((z.zadd score name).zaddAll score names).elements = _
    rw [ih hnames hnew', hadd, List.append_assoc]
    rfl

/-- Their scores are recorded behind the others. -/
theorem scores_zaddAll {score : ℚ} {names : List M} (hnodup : names.Nodup) {z : SortedSet M}
    (hnew : ∀ name ∈ names, name ∉ z.members) :
    (z.zaddAll score names).scores = z.scores ++ List.replicate names.length score := by
  have hscores : names.map (Prod.snd ∘ (·, score)) = List.replicate names.length score :=
    List.map_const'
  rw [scores, elements_zaddAll hnodup hnew, List.map_append, List.map_map, hscores, scores]

end SortedSet

end ThrottleKit.Redis
