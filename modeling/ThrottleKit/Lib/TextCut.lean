import Mathlib.Data.List.Chain
import Mathlib.Tactic.Common

/-!
# Cutting a list at a mark

A list is cut at the first or the last place of a mark, or at the first place of two marks in a row.
What comes before and behind is given back without the marks.

## Main definitions

* `cut`, `cutLast`, `cutPair` — the two parts, if the list has the mark

## Main results

* `cutLast_eq_some_iff`, `cutPair_eq_some_iff` — the parts of a cut
* `cutPair_eq_none_of_isChain` — a list with no two marks in a row is not cut
-/

namespace TextCut

variable {α : Type*} [DecidableEq α]

/-- What comes before and behind the first `c`. -/
def cut (c : α) : List α → Option (List α × List α)
  | [] => none
  | x :: s => if x = c then some ([], s) else (cut c s).map fun p => (x :: p.1, p.2)

/-- What comes before and behind the last `c`. -/
def cutLast (c : α) : List α → Option (List α × List α)
  | [] => none
  | x :: s =>
    match cutLast c s with
    | some p => some (x :: p.1, p.2)
    | none => if x = c then some ([], s) else none

/-- What comes before and behind the first two `c` in a row. -/
def cutPair (c : α) : List α → Option (List α × List α)
  | [] => none
  | x :: s =>
    if x = c ∧ s.head? = some c then some ([], s.tail)
    else (cutPair c s).map fun p => (x :: p.1, p.2)

variable {c x : α} {s a b : List α}

/-! ### One mark -/

theorem cutLast_eq_none_iff : cutLast c s = none ↔ c ∉ s := by
  induction s with
  | nil => simp [cutLast]
  | cons x s ih =>
    rw [cutLast]
    split
    · rename_i p hp
      have hmem : c ∈ s := by
        by_contra hmem
        rw [ih.mpr hmem] at hp
        cases hp
      simp [hmem]
    · rename_i hnone
      have hs := ih.mp hnone
      split
      · rename_i hx
        simp [hx]
      · rename_i hx
        simp [Ne.symm hx, hs]

theorem cutLast_append (h : c ∉ b) : cutLast c (a ++ c :: b) = some (a, b) := by
  induction a with
  | nil => rw [List.nil_append, cutLast, cutLast_eq_none_iff.mpr h, if_pos rfl]
  | cons x a ih => rw [List.cons_append, cutLast, ih]

/-- **The parts of a cut at the last mark.** -/
theorem cutLast_eq_some_iff : cutLast c s = some (a, b) ↔ s = a ++ c :: b ∧ c ∉ b := by
  refine ⟨fun h => ?_, fun ⟨hs, hb⟩ => hs ▸ cutLast_append hb⟩
  induction s generalizing a with
  | nil => simp [cutLast] at h
  | cons x s ih =>
    rw [cutLast] at h
    split at h
    · rename_i p hp
      obtain ⟨rfl, rfl⟩ := Prod.mk.inj (Option.some.inj h)
      obtain ⟨hs, hb⟩ := ih hp
      exact ⟨by rw [hs]; rfl, hb⟩
    · rename_i hnone
      split at h
      · rename_i hx
        obtain ⟨rfl, rfl⟩ := Prod.mk.inj (Option.some.inj h)
        exact ⟨by rw [hx]; rfl, cutLast_eq_none_iff.mp hnone⟩
      · cases h

/-- The last mark of what comes behind is the last mark. -/
theorem cutLast_append_left (h : c ∈ b) :
    cutLast c (a ++ b) = (cutLast c b).map fun p => (a ++ p.1, p.2) := by
  cases hcut : cutLast c b with
  | none => exact absurd h (cutLast_eq_none_iff.mp hcut)
  | some p =>
    obtain ⟨rfl, hp⟩ := cutLast_eq_some_iff.mp hcut
    rw [← List.append_assoc, cutLast_append hp]
    rfl

/-! ### Two marks in a row -/

/-- No two `c` in a row. -/
def NoPair (c : α) (s : List α) : Prop := s.IsChain fun x y => ¬ (x = c ∧ y = c)

theorem cutPair_eq_none_iff : cutPair c s = none ↔ NoPair c s := by
  induction s with
  | nil => simp [cutPair, NoPair]
  | cons x s ih =>
    rw [cutPair]
    split
    · rename_i h
      obtain ⟨hx, hs⟩ := h
      obtain ⟨s', rfl⟩ : ∃ s', s = c :: s' := by
        cases s with
        | nil => cases hs
        | cons y s' => exact ⟨s', by rw [Option.some.inj hs]⟩
      simp [NoPair, hx]
    · rename_i h
      rw [Option.map_eq_none_iff, ih]
      cases s with
      | nil => simp [NoPair]
      | cons y s' =>
        have hxy : ¬ (x = c ∧ y = c) := fun hxy => h ⟨hxy.1, by rw [hxy.2]; rfl⟩
        rw [NoPair, NoPair, List.isChain_cons_cons]
        exact (and_iff_right hxy).symm

theorem cutPair_append (h : NoPair c (a ++ [c])) : cutPair c (a ++ c :: c :: b) = some (a, b) := by
  induction a with
  | nil => simp [cutPair]
  | cons x a ih =>
    have hrest : NoPair c (a ++ [c]) := List.IsChain.tail h
    have hnot : ¬ (x = c ∧ (a ++ c :: c :: b).head? = some c) := by
      rintro ⟨hx, hhead⟩
      cases a with
      | nil => exact (List.isChain_cons_cons.mp h).1 ⟨hx, rfl⟩
      | cons y a => exact (List.isChain_cons_cons.mp h).1 ⟨hx, Option.some.inj hhead⟩
    rw [List.cons_append, cutPair, if_neg hnot, ih hrest]
    rfl

/-- **The parts of a cut at the first two marks in a row.** -/
theorem cutPair_eq_some_iff :
    cutPair c s = some (a, b) ↔ s = a ++ c :: c :: b ∧ NoPair c (a ++ [c]) := by
  refine ⟨fun h => ?_, fun ⟨hs, ha⟩ => hs ▸ cutPair_append ha⟩
  induction s generalizing a with
  | nil => simp [cutPair] at h
  | cons x s ih =>
    rw [cutPair] at h
    split at h
    · rename_i hx
      obtain ⟨rfl, rfl⟩ := Prod.mk.inj (Option.some.inj h)
      obtain ⟨rfl, hs⟩ := hx
      cases s with
      | nil => cases hs
      | cons y s' =>
        obtain rfl := Option.some.inj hs
        exact ⟨rfl, List.isChain_singleton _⟩
    · rename_i hx
      obtain ⟨⟨a', b'⟩, hp, heq⟩ := Option.map_eq_some_iff.mp h
      obtain ⟨rfl, rfl⟩ := Prod.mk.inj heq
      obtain ⟨rfl, ha⟩ := ih hp
      refine ⟨rfl, ?_⟩
      cases a' with
      | nil => exact List.isChain_cons_cons.mpr ⟨fun h => hx ⟨h.1, rfl⟩, ha⟩
      | cons y a' =>
        exact List.isChain_cons_cons.mpr ⟨fun h => hx ⟨h.1, by rw [h.2]; rfl⟩, ha⟩

/-! ### All marks -/

/-- No part of a list that is split at every `c` has a `c`. -/
theorem notMem_of_mem_splitOn {t : List α} (h : t ∈ s.splitOn c) : c ∉ t := by
  induction s generalizing t with
  | nil =>
    rw [List.splitOn_nil, List.mem_singleton] at h
    rw [h]
    exact List.not_mem_nil
  | cons x s ih =>
    obtain ⟨first, rest, hparts⟩ := List.exists_cons_of_ne_nil (List.splitOn_ne_nil c s)
    rw [List.splitOn_cons_eq_if_modifyHead, hparts, List.modifyHead_cons] at h
    rw [hparts] at ih
    split at h
    · rcases List.mem_cons.mp h with rfl | h
      · exact List.not_mem_nil
      · exact ih h
    · rename_i hx
      rcases List.mem_cons.mp h with rfl | h
      · intro hmem
        rcases List.mem_cons.mp hmem with heq | hmem
        · exact hx (by simp [heq])
        · exact ih List.mem_cons_self hmem
      · exact ih (List.mem_cons_of_mem _ h)

end TextCut
