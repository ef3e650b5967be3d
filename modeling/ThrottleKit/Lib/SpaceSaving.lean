import Mathlib.Algebra.Group.Action.Defs
import Mathlib.Algebra.Order.Field.Basic
import Mathlib.Tactic.Linarith
import Mathlib.Tactic.Positivity
import ThrottleKit.Lib.OrderedMap

/-!
# Space-Saving

A summary of a stream counts some of its keys. A key that is counted is counted on; a new key is
counted from one as long as there is room, and otherwise takes over the count of a least counted key
and keeps in mind how much of it is not its own. Which of the least counted keys that is, is left
open.

## Main definitions

* `Cell`, `Update`, `Run` — counts, and what a summary may do with a key and with a stream
* `Summary` — what a summary knows about the stream

## Main results

* `Update.summary` — one more key
* `Run.summary` — the counts of every run
* `Summary.mem_keys` — a frequent key is counted
-/

namespace SpaceSaving

variable {κ : Type*} [DecidableEq κ]

/-- A count, and how much of it may be due to other keys. -/
structure Cell where
  count : ℕ
  error : ℕ

/-- What a summary of capacity `c` may do with one more key. -/
inductive Update (c : ℚ) (m : OrderedMap κ Cell) (k : κ) : OrderedMap κ Cell → Prop
  | hit {s} : m.lookup k = some s → Update c m k (m.set k ⟨s.count + 1, s.error⟩)
  | room : m.lookup k = none → m.size < c → Update c m k (m.set k ⟨1, 0⟩)
  | evict {j s} : m.lookup k = none → c ≤ m.size → m.lookup j = some s →
      (∀ j' s', m.lookup j' = some s' → s.count ≤ s'.count) →
        Update c m k ((m.erase j).set k ⟨s.count + 1, s.count⟩)

/-- What becomes of a summary when it is given a stream, the latest key last. -/
inductive Run (c : ℚ) : List κ → OrderedMap κ Cell → Prop
  | empty : Run c [] .empty
  | snoc {ks m k m'} : Run c ks m → Update c m k m' → Run c (ks ++ [k]) m'

/-- What a summary knows about the stream: it counts every key of it once in all, each of its counts
is that of its key and some of the error, and it counts no key less than one it does not count. -/
structure Summary (c : ℚ) (ks : List κ) (m : OrderedMap κ Cell) : Prop where
  total : m.sum (fun _ s => s.count) = ks.length
  le_count : ∀ k s, m.lookup k = some s → ks.count k ≤ s.count
  count_le : ∀ k s, m.lookup k = some s → s.count ≤ ks.count k + s.error
  untracked : ∀ k, m.lookup k = none → ∀ j s, m.lookup j = some s → ks.count k ≤ s.count
  unseen : m.size < c → ∀ k, m.lookup k = none → ks.count k = 0

variable {c : ℚ} {ks : List κ} {m m' : OrderedMap κ Cell} {k : κ}

theorem count_snoc (j : κ) : (ks ++ [k]).count j = ks.count j + if k = j then 1 else 0 := by
  rw [List.count_append, List.count_singleton]
  simp only [beq_iff_eq]

/-- A key is given a count, and the other keys keep theirs or are not counted any more. -/
theorem Summary.set {base : OrderedMap κ Cell} {n e : ℕ} (h : Summary c ks m)
    (hbase : ∀ j s, j ≠ k → base.lookup j = some s → m.lookup j = some s)
    (hgone : ∀ j, j ≠ k → base.lookup j = none →
      ks.count j ≤ n ∧ (∀ i s, i ≠ k → base.lookup i = some s → ks.count j ≤ s.count) ∧
        ((base.set k ⟨n + 1, e⟩).size < c → ks.count j = 0))
    (htotal : (base.set k ⟨n + 1, e⟩).sum (fun _ s => s.count) = ks.length + 1)
    (hle : ks.count k ≤ n) (hge : n ≤ ks.count k + e) :
    Summary c (ks ++ [k]) (base.set k ⟨n + 1, e⟩) := by
  have hself : (ks ++ [k]).count k = ks.count k + 1 := by rw [count_snoc, if_pos rfl]
  have hother : ∀ {j}, j ≠ k → (ks ++ [k]).count j = ks.count j := fun hj => by
    rw [count_snoc, if_neg (Ne.symm hj), Nat.add_zero]
  have hlookup : ∀ {j s}, (base.set k ⟨n + 1, e⟩).lookup j = some s →
      j = k ∧ s = ⟨n + 1, e⟩ ∨ j ≠ k ∧ base.lookup j = some s := by
    intro j s hs
    rw [OrderedMap.lookup_set] at hs
    split at hs
    · rename_i hj
      exact .inl ⟨hj.symm, (Option.some.inj hs).symm⟩
    · rename_i hj
      exact .inr ⟨Ne.symm hj, hs⟩
  have hnone : ∀ {j}, (base.set k ⟨n + 1, e⟩).lookup j = none → j ≠ k ∧ base.lookup j = none := by
    intro j hs
    rw [OrderedMap.lookup_set] at hs
    split at hs
    · cases hs
    · rename_i hj
      exact ⟨Ne.symm hj, hs⟩
  refine ⟨?_, fun j s hs => ?_, fun j s hs => ?_, fun j hj i s hs => ?_, fun hroom j hj => ?_⟩
  · rw [htotal, List.length_append, List.length_singleton]
  · rcases hlookup hs with ⟨rfl, rfl⟩ | ⟨hj, hs⟩
    · rw [hself]
      exact Nat.succ_le_succ hle
    · rw [hother hj]
      exact h.le_count j s (hbase j s hj hs)
  · rcases hlookup hs with ⟨rfl, rfl⟩ | ⟨hj, hs⟩
    · rw [hself]
      dsimp only
      omega
    · rw [hother hj]
      exact h.count_le j s (hbase j s hj hs)
  · obtain ⟨hjk, hj⟩ := hnone hj
    obtain ⟨hn, hcounts, -⟩ := hgone j hjk hj
    rw [hother hjk]
    rcases hlookup hs with ⟨rfl, rfl⟩ | ⟨hi, hs⟩
    · exact Nat.le_succ_of_le hn
    · exact hcounts i s hi hs
  · obtain ⟨hjk, hj⟩ := hnone hj
    rw [hother hjk]
    exact (hgone j hjk hj).2.2 hroom

/-- A key that is counted on. -/
theorem Summary.hit (h : Summary c ks m) {s : Cell} (hs : m.lookup k = some s) :
    Summary c (ks ++ [k]) (m.set k ⟨s.count + 1, s.error⟩) := by
  have hsize : (m.set k ⟨s.count + 1, s.error⟩).size = m.size := by
    have hone := OrderedMap.sum_eq_add_sum_erase (fun _ _ => 1) hs
    rw [← OrderedMap.sum_set (fun _ _ => 1) m k ⟨s.count + 1, s.error⟩, OrderedMap.sum_const,
      OrderedMap.sum_const, smul_eq_mul, smul_eq_mul, Nat.mul_one, Nat.mul_one] at hone
    exact hone.symm
  have htotal := h.total
  rw [OrderedMap.sum_eq_add_sum_erase _ hs] at htotal
  refine h.set (fun j t _ ht => ht) (fun j _ hj => ⟨h.untracked j hj k s hs, fun i t _ ht =>
    h.untracked j hj i t ht, fun hroom => h.unseen (by rwa [hsize] at hroom) j hj⟩) ?_
    (h.le_count k s hs) (h.count_le k s hs)
  rw [OrderedMap.sum_set]
  dsimp only at htotal ⊢
  omega

/-- A key for which there is room. -/
theorem Summary.room (h : Summary c ks m) (hk : m.lookup k = none) (hroom : m.size < c) :
    Summary c (ks ++ [k]) (m.set k ⟨1, 0⟩) := by
  have hunseen := h.unseen hroom
  have htotal := h.total
  refine h.set (n := 0) (fun j t _ ht => ht) (fun j _ hj => ⟨(hunseen j hj).le, fun i t _ ht =>
    h.untracked j hj i t ht, fun _ => hunseen j hj⟩) ?_ (hunseen k hk).le (Nat.zero_le _)
  rw [OrderedMap.sum_set, OrderedMap.sum_erase_of_lookup_eq_none _ hk, htotal, Nat.add_comm]

/-- A key that takes over the least count. -/
theorem Summary.evict (h : Summary c ks m) {j : κ} {s : Cell} (hk : m.lookup k = none)
    (hfull : c ≤ m.size) (hj : m.lookup j = some s)
    (hleast : ∀ j' s', m.lookup j' = some s' → s.count ≤ s'.count) :
    Summary c (ks ++ [k]) ((m.erase j).set k ⟨s.count + 1, s.count⟩) := by
  have hsize : ((m.erase j).set k ⟨s.count + 1, s.count⟩).size = m.size := by
    have hone := OrderedMap.sum_replace (v := (⟨s.count + 1, s.count⟩ : Cell)) (fun _ _ => 1) hk hj
    rw [OrderedMap.sum_const, OrderedMap.sum_const, smul_eq_mul, smul_eq_mul, Nat.mul_one,
      Nat.mul_one] at hone
    exact Nat.add_left_cancel hone
  have hkept : ∀ i t, (m.erase j).lookup i = some t → m.lookup i = some t := by
    intro i t ht
    rw [OrderedMap.lookup_erase] at ht
    split at ht
    · cases ht
    · exact ht
  have hcount : ∀ i, (m.erase j).lookup i = none → ks.count i ≤ s.count := by
    intro i hi
    rw [OrderedMap.lookup_erase] at hi
    split at hi
    · rename_i hji
      rw [← hji]
      exact h.le_count j s hj
    · exact h.untracked i hi j s hj
  refine h.set (fun i t _ ht => hkept i t ht) (fun i _ hi => ⟨hcount i hi, fun i' t _ ht =>
    (hcount i hi).trans (hleast i' t (hkept i' t ht)), fun hroom => ?_⟩) ?_
    (h.untracked k hk j s hj) (Nat.le_add_left _ _)
  · rw [hsize] at hroom
    exact absurd hroom (not_lt.mpr hfull)
  · have htotal := OrderedMap.sum_replace (v := (⟨s.count + 1, s.count⟩ : Cell))
      (fun _ t => t.count) hk hj
    rw [h.total] at htotal
    dsimp only at htotal ⊢
    omega

/-- **One more key.** -/
theorem Update.summary (hupdate : Update c m k m') (h : Summary c ks m) :
    Summary c (ks ++ [k]) m' := by
  cases hupdate with
  | hit hs => exact h.hit hs
  | room hk hroom => exact h.room hk hroom
  | evict hk hfull hj hleast => exact h.evict hk hfull hj hleast

theorem Summary.empty (c : ℚ) : Summary c [] (.empty : OrderedMap κ Cell) := by
  have hnone : ∀ j s, (.empty : OrderedMap κ Cell).lookup j ≠ some s := by simp
  exact ⟨rfl, fun j s hs => absurd hs (hnone j s), fun j s hs => absurd hs (hnone j s),
    fun _ _ j s hs => absurd hs (hnone j s), fun _ _ _ => rfl⟩

/-- **The counts of every run**, whichever of the least counts are taken over. -/
theorem Run.summary (h : Run c ks m) : Summary c ks m := by
  induction h with
  | empty => exact .empty c
  | snoc _ hupdate ih => exact hupdate.summary ih

/-- **A frequent key is counted.** -/
theorem Summary.mem_keys (h : Summary c ks m) (hc : 0 < c) (hk : (ks.length : ℚ) / c < ks.count k) :
    k ∈ m.keys := by
  by_contra hnot
  have hnone : m.lookup k = none := OrderedMap.lookup_eq_none.mpr hnot
  rcases lt_or_ge (m.size : ℚ) c with hroom | hfull
  · rw [h.unseen hroom k hnone, Nat.cast_zero] at hk
    exact absurd hk (not_lt.mpr (by positivity))
  · have hsum : m.size * ks.count k ≤ ks.length := by
      rw [← h.total, ← smul_eq_mul, ← OrderedMap.sum_const]
      exact OrderedMap.sum_le_sum fun j s hs => h.untracked k hnone j s hs
    have hsum' : (m.size : ℚ) * ks.count k ≤ ks.length := by exact_mod_cast hsum
    have hle : c * ks.count k ≤ m.size * ks.count k :=
      mul_le_mul_of_nonneg_right hfull (Nat.cast_nonneg _)
    rw [div_lt_iff₀ hc] at hk
    linarith

end SpaceSaving
