import Mathlib

/-!
# Count-min tables

A table of counters, none of which goes past a cap. A key has some of the cells, found by any
mapping: keys may share cells, and a key may have a cell more than once. The plain update adds to
every cell of a key; the conservative one raises them to a target. Two tables are merged by adding
them up.

Stopping at a cap is harmless: a counter that stopped says the cap whatever is added to it, so a
table of plain updates depends on nothing but how much was added to each cell (`exact`). Neither
the order of the updates nor how they were spread over the tables that were merged matters.

## Main definitions

* `bump`, `raise`, `merge` — the two updates, and the union of two tables
* `exact` — the table after a list of plain updates, in closed form
* `estimate` — the smallest counter of a key
* `Covers` — every counter of a key is at least what was added for the key, up to the cap

## Main results

* `bump_exact`, `merge_exact`, `exact_perm` — the algebra of plain updates
* `Covers.bump`, `Covers.raise` — both updates keep the table covering
* `Covers.le_estimate` — a covering table never underestimates
-/

namespace CountMin

variable {κ ι : Type*}

section Tables

variable [DecidableEq ι]

/-- Add `n` to each of the cells in turn, up to `cap`. -/
def bump (cap n : ℕ) (is : List ι) (t : ι → ℕ) : ι → ℕ :=
  is.foldl (fun t i => Function.update t i (min (t i + n) cap)) t

/-- Raise each of the cells to `target`. -/
def raise (target : ℕ) (is : List ι) (t : ι → ℕ) : ι → ℕ :=
  is.foldl (fun t i => if t i < target then Function.update t i target else t) t

/-- Add up two tables, up to `cap`. -/
def merge (cap : ℕ) (t t' : ι → ℕ) : ι → ℕ := fun i => min (t i + t' i) cap

theorem bump_apply {cap n : ℕ} {i : ι} : ∀ (is : List ι) {t : ι → ℕ}, t i ≤ cap →
    bump cap n is t i = min (t i + n * is.count i) cap
  | [], t, ht => by simpa [bump] using ht
  | j :: is, t, ht => by
    show bump cap n is (Function.update t j (min (t j + n) cap)) i = _
    by_cases hij : i = j
    · subst hij
      rw [bump_apply is (by simp), Function.update_self, List.count_cons_self, Nat.mul_succ]
      omega
    · rw [bump_apply is (by rwa [Function.update_of_ne hij]), Function.update_of_ne hij,
        List.count_cons_of_ne (Ne.symm hij)]

theorem raise_apply {target : ℕ} {i : ι} : ∀ (is : List ι) {t : ι → ℕ},
    raise target is t i = if i ∈ is then max (t i) target else t i
  | [], t => by simp [raise]
  | j :: is, t => by
    show raise target is (if t j < target then Function.update t j target else t) i = _
    rw [raise_apply is]
    by_cases hij : i = j
    · subst hij
      by_cases hlt : t i < target
      · simp [hlt, hlt.le]
      · simp [hlt, not_lt.mp hlt]
    · have hother : (if t j < target then Function.update t j target else t) i = t i := by
        split
        · exact Function.update_of_ne hij _ _
        · rfl
      rw [hother]
      simp [hij]

end Tables

/-! ### Plain updates -/

section Plain

variable [DecidableEq ι] (cap : ℕ) (cells : κ → List ι)

/-- What a list of updates adds to a cell. -/
def load (updates : List (κ × ℕ)) (i : ι) : ℕ :=
  (updates.map fun u => u.2 * (cells u.1).count i).sum

/-- The table after plain updates from zero. -/
def exact (updates : List (κ × ℕ)) : ι → ℕ := fun i => min (load cells updates i) cap

variable {cap cells}

@[simp] theorem load_append (l l' : List (κ × ℕ)) (i : ι) :
    load cells (l ++ l') i = load cells l i + load cells l' i := by
  simp [load]

theorem exact_le (l : List (κ × ℕ)) (i : ι) : exact cap cells l i ≤ cap := min_le_right _ _

@[simp] theorem exact_nil : exact cap cells [] = fun _ => 0 := by
  funext i
  simp [exact, load]

/-- The updates may be in any order. -/
theorem exact_perm {l l' : List (κ × ℕ)} (h : l.Perm l') :
    exact cap cells l = exact cap cells l' := by
  funext i
  rw [exact, exact, load, load, (h.map _).sum_eq]

/-- An update to the table of `l` gives the table of `l` and it. -/
theorem bump_exact (l : List (κ × ℕ)) (k : κ) (n : ℕ) :
    bump cap n (cells k) (exact cap cells l) = exact cap cells (l ++ [(k, n)]) := by
  funext i
  have hload : load cells [(k, n)] i = n * (cells k).count i := by simp [load]
  rw [bump_apply _ (exact_le l i), exact, exact, load_append, hload]
  omega

/-- **Merging two tables of plain updates gives the table of all the updates.** -/
theorem merge_exact (l l' : List (κ × ℕ)) :
    merge cap (exact cap cells l) (exact cap cells l') = exact cap cells (l ++ l') := by
  funext i
  rw [merge, exact, exact, exact, load_append]
  omega

end Plain

/-! ### Never underestimating -/

/-- The smallest counter of the cells; `⊤` when there is no cell. -/
def estimate (is : List ι) (t : ι → ℕ) : WithTop ℕ :=
  is.foldr (fun i least => min (WithTop.some (t i)) least) ⊤

theorem le_estimate_iff {n : ℕ} {t : ι → ℕ} : ∀ {is : List ι},
    WithTop.some n ≤ estimate is t ↔ ∀ i ∈ is, n ≤ t i
  | [] => by simp [estimate]
  | i :: is => by
    show WithTop.some n ≤ min (WithTop.some (t i)) (estimate is t) ↔ _
    rw [le_min_iff, le_estimate_iff, List.forall_mem_cons, WithTop.coe_le_coe]

theorem estimate_le {i : ι} {is : List ι} (t : ι → ℕ) (h : i ∈ is) :
    estimate is t ≤ WithTop.some (t i) := by
  induction is with
  | nil => cases h
  | cons j is ih =>
    show min (WithTop.some (t j)) (estimate is t) ≤ _
    rcases List.mem_cons.mp h with rfl | hmem
    · exact min_le_left _ _
    · exact (min_le_right _ _).trans (ih hmem)

section Cover

variable [DecidableEq κ] (cap : ℕ) (cells : κ → List ι)

/-- What was added for a key. -/
def trueCount (updates : List (κ × ℕ)) (k : κ) : ℕ :=
  ((updates.filter fun u => u.1 = k).map Prod.snd).sum

/-- Every counter of a key is at least what was added for the key, up to the cap. -/
def Covers (updates : List (κ × ℕ)) (t : ι → ℕ) : Prop :=
  ∀ k, ∀ i ∈ cells k, min (trueCount updates k) cap ≤ t i

variable {cap cells} {l l' : List (κ × ℕ)} {t t' : ι → ℕ} {k : κ} {n : ℕ}

theorem trueCount_append (l l' : List (κ × ℕ)) (k : κ) :
    trueCount (l ++ l') k = trueCount l k + trueCount l' k := by
  simp [trueCount]

theorem trueCount_singleton (k k' : κ) (n : ℕ) :
    trueCount [(k, n)] k' = if k = k' then n else 0 := by
  by_cases h : k = k'
  · simp [trueCount, h]
  · simp [trueCount, h]

theorem covers_nil (t : ι → ℕ) : Covers cap cells [] t := fun _ _ _ => by simp [trueCount]

/-- A covering table never underestimates. -/
theorem Covers.le_estimate (h : Covers cap cells l t) (k : κ) :
    WithTop.some (min (trueCount l k) cap) ≤ estimate (cells k) t :=
  le_estimate_iff.mpr (h k)

/-- An update keeps the table covering when it takes no counter down and those of its key far
enough up. -/
theorem Covers.update (h : Covers cap cells l t) (hmono : ∀ i, t i ≤ t' i)
    (hown : ∀ i ∈ cells k, min (trueCount l k + n) cap ≤ t' i) :
    Covers cap cells (l ++ [(k, n)]) t' := by
  intro k' i hi
  rw [trueCount_append, trueCount_singleton]
  split
  · rename_i hk
    subst hk
    exact hown i hi
  · exact (h k' i hi).trans (hmono i)

variable [DecidableEq ι]

/-- The plain update keeps the table covering. -/
theorem Covers.bump (h : Covers cap cells l t) (hcap : ∀ i, t i ≤ cap) :
    Covers cap cells (l ++ [(k, n)]) (bump cap n (cells k) t) := by
  refine h.update (fun i => ?_) fun i hi => ?_
  · rw [bump_apply _ (hcap i)]
    exact le_min (Nat.le_add_right _ _) (hcap i)
  · have hone : 1 ≤ (cells k).count i := List.one_le_count_iff.mpr hi
    have hn : n ≤ n * (cells k).count i := Nat.le_mul_of_pos_right n hone
    have hcover : min (trueCount l k) cap ≤ t i := h k i hi
    rw [bump_apply _ (hcap i)]
    omega

/-- The conservative update keeps the table covering. -/
theorem Covers.raise {target : ℕ} (h : Covers cap cells l t)
    (htarget : min (trueCount l k + n) cap ≤ target) :
    Covers cap cells (l ++ [(k, n)]) (raise target (cells k) t) := by
  refine h.update (fun i => ?_) fun i hi => ?_
  · rw [raise_apply]
    split
    · exact le_max_left _ _
    · exact le_rfl
  · rw [raise_apply, if_pos hi]
    exact htarget.trans (le_max_right _ _)

theorem trueCount_le_load : ∀ (l : List (κ × ℕ)) {i : ι}, i ∈ cells k →
    trueCount l k ≤ load cells l i
  | [], _, _ => by simp [trueCount]
  | (k', n) :: l, i, hi => by
    have ih : trueCount l k ≤ load cells l i := trueCount_le_load l hi
    rw [← List.singleton_append, trueCount_append, load_append, trueCount_singleton]
    refine Nat.add_le_add ?_ ih
    split
    · rename_i hk
      subst hk
      have hone : 1 ≤ (cells k').count i := List.one_le_count_iff.mpr hi
      simpa [load] using Nat.le_mul_of_pos_right n hone
    · exact Nat.zero_le _

/-- The table of plain updates is covering, whatever they were. -/
theorem covers_exact (l : List (κ × ℕ)) : Covers cap cells l (exact cap cells l) :=
  fun _ _ hi => min_le_min (trueCount_le_load l hi) le_rfl

end Cover

end CountMin
