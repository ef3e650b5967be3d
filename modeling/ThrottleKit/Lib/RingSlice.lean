import Mathlib.Data.List.Basic
import Mathlib.Data.Nat.ModEq
import Mathlib.Logic.Function.Basic
import Mathlib.Tactic.Common

/-!
# A queue in the slots of a ring

A queue of fixed capacity keeps its entries in consecutive slots, counted modulo the capacity, from
the slot of the oldest entry on. Writing the slot behind the newest entry appends to the queue, as
long as the ring is not full; leaving the first slot behind drops the oldest entry; doing both in a
full ring replaces the oldest entry by a new one.

## Main definitions

* `slice` — the entries, oldest first

## Main results

* `slot_ne` — the slot behind the newest entry holds none
* `slice_write` — an entry more
* `slice_replace` — an entry in place of the oldest
-/

namespace RingSlice

variable {β : Type*} {cap head n : ℕ}

/-- The `n` entries from `head` on. -/
def slice (slots : ℕ → β) (cap head n : ℕ) : List β :=
  (List.range n).map fun i => slots ((head + i) % cap)

@[simp] theorem length_slice (slots : ℕ → β) (cap head n : ℕ) :
    (slice slots cap head n).length = n := by
  rw [slice, List.length_map, List.length_range]

theorem slice_succ (slots : ℕ → β) (cap head n : ℕ) :
    slice slots cap head (n + 1) = slice slots cap head n ++ [slots ((head + n) % cap)] := by
  rw [slice, List.range_succ, List.map_append]
  rfl

/-- The oldest entry, and the others. -/
theorem slice_succ_eq_cons (slots : ℕ → β) (cap head n : ℕ) :
    slice slots cap head (n + 1) = slots (head % cap) :: slice slots cap (head + 1) n := by
  rw [slice, List.range_succ_eq_map, List.map_cons, List.map_map, slice, Nat.add_zero]
  refine congrArg _ (List.map_congr_left fun i _ => ?_)
  rw [Function.comp_apply, Nat.succ_eq_add_one, Nat.add_right_comm, Nat.add_assoc head]

/-- Only the slot of the oldest entry matters. -/
theorem slice_mod (slots : ℕ → β) (cap head n : ℕ) :
    slice slots cap (head % cap) n = slice slots cap head n := by
  refine List.map_congr_left fun i _ => ?_
  rw [Nat.mod_add_mod]

/-- The slots of fewer entries than the ring has are not the next one. -/
theorem slot_ne (head : ℕ) {i : ℕ} (hi : i < n) (hn : n < cap) :
    (head + i) % cap ≠ (head + n) % cap := by
  intro heq
  have hmod : i ≡ n [MOD cap] := Nat.ModEq.add_left_cancel' head heq
  rw [Nat.ModEq, Nat.mod_eq_of_lt (hi.trans hn), Nat.mod_eq_of_lt hn] at hmod
  exact hi.ne hmod

/-- Writing the slot behind the newest entry keeps the entries. -/
theorem slice_update (slots : ℕ → β) (head : ℕ) (hn : n < cap) (b : β) :
    slice (Function.update slots ((head + n) % cap) b) cap head n = slice slots cap head n := by
  refine List.map_congr_left fun i hi => ?_
  rw [Function.update_of_ne (slot_ne head (List.mem_range.mp hi) hn)]

/-- **An entry more.** -/
theorem slice_write (slots : ℕ → β) (head : ℕ) (hn : n < cap) (b : β) :
    slice (Function.update slots ((head + n) % cap) b) cap head (n + 1)
      = slice slots cap head n ++ [b] := by
  rw [slice_succ, slice_update slots head hn, Function.update_self]

/-- **An entry in place of the oldest.** -/
theorem slice_replace (slots : ℕ → β) (head : ℕ) (hcap : 0 < cap) (b : β) :
    slice (Function.update slots (head % cap) b) cap (head + 1) cap
      = (slice slots cap head cap).tail ++ [b] := by
  obtain ⟨n, rfl⟩ : ∃ n, cap = n + 1 := ⟨cap - 1, by omega⟩
  have hslot : head % (n + 1) = (head + 1 + n) % (n + 1) := by
    rw [Nat.add_assoc, Nat.add_comm 1 n, Nat.add_mod_right]
  rw [slice_succ_eq_cons slots, List.tail_cons, hslot, slice_write _ _ (Nat.lt_succ_self n)]

end RingSlice
