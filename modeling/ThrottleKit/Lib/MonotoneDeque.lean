import Mathlib.Data.List.DropRight
import Mathlib.Data.List.MinMax
import Mathlib.Tactic.Common

/-!
# The minimum of a sliding window

Of a list that grows at its end the minimum of the last `w` entries is kept by a queue of
candidates: entries, with their places, that are smaller than everything behind them. A new entry
removes the candidates that are no smaller from the back, and the front candidate once it is too
old. The front candidate is the minimum.

## Main definitions

* `Tracks` — the candidates of a list
* `expire`, `push` — the queue when the list grows

## Main results

* `Tracks.push` — the candidates after a push
* `Tracks.minimum` — the front candidate is the minimum
* `Tracks.length_le` — there are no more candidates than the window is long
-/

namespace MonotoneDeque

variable {α : Type*}

/-- A candidate: its place in the list, and its value. -/
abbrev Candidate (α : Type*) := ℕ × α

/-- The candidates without the front one, if it is too old for a list of one entry more than
`n`. -/
def expire (n w : ℕ) : List (Candidate α) → List (Candidate α)
  | [] => []
  | e :: d => if e.1 + w ≤ n then d else e :: d

theorem expire_suffix (n w : ℕ) (d : List (Candidate α)) : expire n w d <:+ d := by
  cases d with
  | nil => exact List.suffix_rfl
  | cons e d =>
    rw [expire]
    split
    · exact List.suffix_cons e d
    · exact List.suffix_rfl

variable [LinearOrder α]

/-- The candidates for the minimum of the last `w` entries of `xs`. -/
structure Tracks (w : ℕ) (xs : List α) (d : List (Candidate α)) : Prop where
  entry : ∀ e ∈ d, xs[e.1]? = some e.2
  sorted : d.Pairwise fun e e' => e.1 < e'.1 ∧ e.2 < e'.2
  recent : ∀ e ∈ d, xs.length ≤ e.1 + w
  /-- No entry of the window is smaller than every candidate at or behind its place. -/
  covers : ∀ i x, xs[i]? = some x → xs.length ≤ i + w → ∃ e ∈ d, i ≤ e.1 ∧ e.2 ≤ x

/-- The candidates once `x` is added to a list of `n` entries. -/
def push (n w : ℕ) (d : List (Candidate α)) (x : α) : List (Candidate α) :=
  (expire n w d).rdropWhile (fun e => x ≤ e.2) ++ [(n, x)]

variable {w : ℕ} {xs : List α} {d : List (Candidate α)} {x : α}

theorem Tracks.place_lt (h : Tracks w xs d) {e : Candidate α} (he : e ∈ d) : e.1 < xs.length :=
  (List.getElem?_eq_some_iff.mp (h.entry e he)).1

/-! ### The front -/

/-- The candidates after the front one has expired are those that a longer list still has. -/
theorem Tracks.mem_expire_iff (h : Tracks w xs d) (e : Candidate α) :
    e ∈ expire xs.length w d ↔ e ∈ d ∧ xs.length < e.1 + w := by
  cases d with
  | nil => simp [expire]
  | cons f d =>
    obtain ⟨hfront, -⟩ := List.pairwise_cons.mp h.sorted
    have hf := h.recent f List.mem_cons_self
    have hbehind : ∀ e ∈ d, xs.length < e.1 + w := fun e he => by
      have := (hfront e he).1
      omega
    rw [expire]
    split
    · rename_i hold
      constructor
      · exact fun he => ⟨List.mem_cons_of_mem _ he, hbehind e he⟩
      · rintro ⟨he, hlt⟩
        rcases List.mem_cons.mp he with rfl | he
        · omega
        · exact he
    · rename_i hyoung
      refine ⟨fun he => ⟨he, ?_⟩, And.left⟩
      rcases List.mem_cons.mp he with rfl | he
      · omega
      · exact hbehind e he

/-! ### The back -/

/-- What is removed from the back is no smaller than the new entry. -/
theorem le_of_notMem_rdropWhile {e : Candidate α} (he : e ∈ d)
    (hnot : e ∉ d.rdropWhile fun e => x ≤ e.2) : x ≤ e.2 := by
  induction d using List.reverseRecOn with
  | nil => cases he
  | append_singleton d f ih =>
    rw [List.rdropWhile_concat] at hnot
    split at hnot
    · rename_i hf
      rcases List.mem_append.mp he with he | he
      · exact ih he hnot
      · rw [List.mem_singleton.mp he]
        exact of_decide_eq_true hf
    · exact absurd he hnot

/-- What stays is smaller than the new entry. -/
theorem lt_of_mem_rdropWhile (hsorted : d.Pairwise fun e e' => e.1 < e'.1 ∧ e.2 < e'.2)
    {e : Candidate α} (he : e ∈ d.rdropWhile fun e => x ≤ e.2) : e.2 < x := by
  induction d using List.reverseRecOn with
  | nil => cases he
  | append_singleton d f ih =>
    obtain ⟨hinit, -, hlast⟩ := List.pairwise_append.mp hsorted
    rw [List.rdropWhile_concat] at he
    split at he
    · exact ih hinit he
    · rename_i hf
      have hfx : f.2 < x := by simpa using hf
      rcases List.mem_append.mp he with he | he
      · exact (hlast e he f (List.mem_singleton_self f)).2.trans hfx
      · rwa [List.mem_singleton.mp he]

/-- What a push keeps is a candidate already, and young enough. -/
theorem Tracks.mem_kept (h : Tracks w xs d) {e : Candidate α}
    (he : e ∈ (expire xs.length w d).rdropWhile fun e => x ≤ e.2) :
    e ∈ d ∧ xs.length < e.1 + w :=
  (h.mem_expire_iff e).mp ((List.rdropWhile_prefix _ _).subset he)

/-! ### A longer list -/

theorem tracks_nil (w : ℕ) : Tracks w ([] : List α) [] where
  entry := by rintro e ⟨⟩
  sorted := .nil
  recent := by rintro e ⟨⟩
  covers := by
    rintro i x hx
    cases hx

/-- **The candidates after a push.** -/
theorem Tracks.push (hw : 0 < w) (h : Tracks w xs d) (x : α) :
    Tracks w (xs ++ [x]) (push xs.length w d x) where
  entry e he := by
    rcases List.mem_append.mp he with he | he
    · have hmem := (h.mem_kept he).1
      rw [List.getElem?_append_left (h.place_lt hmem)]
      exact h.entry e hmem
    · obtain rfl := List.mem_singleton.mp he
      exact List.getElem?_concat_length
  sorted := by
    have hexpire := h.sorted.sublist (expire_suffix xs.length w d).sublist
    refine List.pairwise_append.mpr
      ⟨hexpire.sublist (List.rdropWhile_prefix _ _).sublist, List.pairwise_singleton _ _, ?_⟩
    intro e he e' he'
    obtain rfl := List.mem_singleton.mp he'
    have hmem := (h.mem_kept he).1
    exact ⟨h.place_lt hmem, lt_of_mem_rdropWhile hexpire he⟩
  recent e he := by
    rw [List.length_append, List.length_singleton]
    rcases List.mem_append.mp he with he | he
    · exact (h.mem_kept he).2
    · obtain rfl := List.mem_singleton.mp he
      exact Nat.add_le_add_left hw _
  covers i y hy hi := by
    rw [List.length_append, List.length_singleton] at hi
    rcases Nat.lt_or_ge i xs.length with hlt | hge
    · rw [List.getElem?_append_left hlt] at hy
      obtain ⟨e, he, hle, hey⟩ := h.covers i y hy (by omega)
      by_cases hkept : e ∈ (expire xs.length w d).rdropWhile fun e => x ≤ e.2
      · exact ⟨e, List.mem_append_left _ hkept, hle, hey⟩
      · -- the new entry takes the place of what it removes
        have hexpire : e ∈ expire xs.length w d := (h.mem_expire_iff e).mpr ⟨he, by omega⟩
        refine ⟨(xs.length, x), List.mem_append_right _ (List.mem_singleton_self _), hlt.le, ?_⟩
        exact (le_of_notMem_rdropWhile hexpire hkept).trans hey
    · refine ⟨(xs.length, x), List.mem_append_right _ (List.mem_singleton_self _), ?_, ?_⟩
      · have := (List.getElem?_eq_some_iff.mp hy).1
        rw [List.length_append, List.length_singleton] at this
        show i ≤ xs.length
        omega
      · rw [List.getElem?_append_right hge] at hy
        have hzero := (List.getElem?_eq_some_iff.mp hy).1
        obtain rfl : i = xs.length := by
          rw [List.length_singleton] at hzero
          omega
        rw [Nat.sub_self] at hy
        exact (Option.some.inj hy).le

/-! ### The minimum -/

/-- **The front candidate is the minimum of the window.** -/
theorem Tracks.minimum {e : Candidate α} (h : Tracks w xs (e :: d)) :
    (xs.drop (xs.length - w)).min? = some e.2 := by
  obtain ⟨hfront, -⟩ := List.pairwise_cons.mp h.sorted
  have hplace := h.place_lt List.mem_cons_self
  have hrecent := h.recent e List.mem_cons_self
  rw [List.min?_eq_some_iff]
  constructor
  · refine List.mem_of_getElem? (i := e.1 - (xs.length - w)) ?_
    rw [List.getElem?_drop, Nat.add_sub_cancel' (by omega)]
    exact h.entry e List.mem_cons_self
  · intro y hy
    obtain ⟨i, hi⟩ := List.mem_iff_getElem?.mp hy
    rw [List.getElem?_drop] at hi
    obtain ⟨f, hf, -, hfy⟩ := h.covers _ y hi (by omega)
    rcases List.mem_cons.mp hf with rfl | hf
    · exact hfy
    · exact (hfront f hf).2.le.trans hfy

/-- Candidates at places of an interval are no more than it is long. -/
theorem length_le_of_sorted (lo hi : ℕ) :
    ∀ {d : List (Candidate α)}, d.Pairwise (fun e e' => e.1 < e'.1 ∧ e.2 < e'.2) →
      (∀ e ∈ d, lo ≤ e.1 ∧ e.1 < hi) → d.length ≤ hi - lo
  | [], _, _ => Nat.zero_le _
  | e :: d, hsorted, hin => by
    obtain ⟨hfront, hrest⟩ := List.pairwise_cons.mp hsorted
    obtain ⟨hlo, hhi⟩ := hin e List.mem_cons_self
    have ih := length_le_of_sorted (e.1 + 1) hi hrest fun f hf =>
      ⟨(hfront f hf).1, (hin f (List.mem_cons_of_mem _ hf)).2⟩
    rw [List.length_cons]
    omega

/-- Behind an expired front there is room for one more. -/
theorem Tracks.length_expire_lt (hw : 0 < w) (h : Tracks w xs d) :
    (expire xs.length w d).length < w := by
  have := length_le_of_sorted (xs.length + 1 - w) xs.length
    (h.sorted.sublist (expire_suffix xs.length w d).sublist) fun e he => by
      obtain ⟨hmem, hlt⟩ := (h.mem_expire_iff e).mp he
      exact ⟨by omega, h.place_lt hmem⟩
  omega

end MonotoneDeque
