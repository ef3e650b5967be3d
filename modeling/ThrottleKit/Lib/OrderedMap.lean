import Mathlib.Algebra.BigOperators.Group.List.Basic
import Mathlib.Algebra.Order.BigOperators.Group.List
import Mathlib.Data.List.Nodup
import Mathlib.Tactic.Abel

/-!
# Insertion-ordered finite maps

A finite map that remembers the order in which its keys were first set: setting a key that is
already present keeps its place, a new key goes to the end, and `oldest?` is the key that has
been there longest. The distinctness of the keys is a field, so an entry is never shadowed.

## Main definitions

* `OrderedMap` — the map, with `lookup`, `set`, `erase`, `filter`, `mapVal`, `size` and `oldest?`
* `OrderedMap.sum` — the sum of a function of key and value over the entries

## Main results

* `lookup_set`, `lookup_erase`, `lookup_filter` — what a later lookup sees
* `sum_eq_add_sum_erase`, `sum_set` — one entry split off a sum
* `sum_update_of_lookup` — a sum over references, when a cell is written
* `sum_filter_le` — dropping entries does not raise a sum of nonnegative terms
-/

/-- A finite map whose entries stand in the order in which their keys were first set. -/
@[ext]
structure OrderedMap (κ ν : Type*) where
  /-- The entries, oldest first. -/
  entries : List (κ × ν)
  /-- No key occurs twice. -/
  nodup : (entries.map Prod.fst).Nodup

namespace OrderedMap

variable {κ ν ν' α : Type*}

/-- The map with no entries. -/
def empty : OrderedMap κ ν := ⟨[], List.nodup_nil⟩

/-- The keys, oldest first. -/
def keys (m : OrderedMap κ ν) : List κ := m.entries.map Prod.fst

/-- How many keys the map holds. -/
def size (m : OrderedMap κ ν) : ℕ := m.entries.length

/-- The key that was set first among those present. -/
def oldest? (m : OrderedMap κ ν) : Option κ := m.keys.head?

/-- Keep the entries that satisfy `p`. -/
def filter (p : κ → ν → Bool) (m : OrderedMap κ ν) : OrderedMap κ ν :=
  ⟨m.entries.filter fun e => p e.1 e.2, m.nodup.sublist (List.filter_sublist.map _)⟩

/-- Apply `f` to every value. -/
def mapVal (f : ν → ν') (m : OrderedMap κ ν) : OrderedMap κ ν' :=
  ⟨m.entries.map (Prod.map id f), by
    have hkeys : (m.entries.map (Prod.map id f)).map Prod.fst = m.entries.map Prod.fst := by simp
    exact hkeys ▸ m.nodup⟩

variable [DecidableEq κ]

/-- Find `k` among `l`. -/
def find (k : κ) : List (κ × ν) → Option ν
  | [] => none
  | (k', v) :: l => if k' = k then some v else find k l

/-- The value at `k`. -/
def lookup (m : OrderedMap κ ν) (k : κ) : Option ν := find k m.entries

/-- Drop `k`. -/
def erase (m : OrderedMap κ ν) (k : κ) : OrderedMap κ ν := m.filter fun k' _ => k' ≠ k

/-- Put `v` at `k` in `l`: in place when `k` is there, at the end when it is not. -/
def put (k : κ) (v : ν) : List (κ × ν) → List (κ × ν)
  | [] => [(k, v)]
  | (k', v') :: l => if k' = k then (k, v) :: l else (k', v') :: put k v l

theorem mem_map_put {k : κ} {v : ν} {x : κ} :
    ∀ l : List (κ × ν), x ∈ (put k v l).map Prod.fst ↔ x = k ∨ x ∈ l.map Prod.fst := by
  intro l
  induction l with
  | nil => simp [put]
  | cons e l ih =>
    obtain ⟨k', v'⟩ := e
    by_cases hk : k' = k
    · subst hk
      simp [put]
    · simp only [put, if_neg hk, List.map_cons, List.mem_cons, ih]
      tauto

theorem nodup_map_put {k : κ} {v : ν} :
    ∀ l : List (κ × ν), (l.map Prod.fst).Nodup → ((put k v l).map Prod.fst).Nodup := by
  intro l
  induction l with
  | nil => simp [put]
  | cons e l ih =>
    obtain ⟨k', v'⟩ := e
    intro h
    rw [List.map_cons, List.nodup_cons] at h
    by_cases hk : k' = k
    · subst hk
      simpa [put] using h
    · rw [put, if_neg hk, List.map_cons, List.nodup_cons, mem_map_put]
      exact ⟨fun hmem => hmem.elim hk h.1, ih h.2⟩

/-- Set `k` to `v`. -/
def set (m : OrderedMap κ ν) (k : κ) (v : ν) : OrderedMap κ ν :=
  ⟨put k v m.entries, nodup_map_put m.entries m.nodup⟩

/-! ### Looking up -/

@[simp] theorem lookup_empty (k : κ) : (empty : OrderedMap κ ν).lookup k = none := rfl

theorem find_put (k k' : κ) (v : ν) :
    ∀ l : List (κ × ν), find k' (put k v l) = if k = k' then some v else find k' l := by
  intro l
  induction l with
  | nil => simp [put, find]
  | cons e l ih =>
    obtain ⟨k₀, v₀⟩ := e
    by_cases hk : k₀ = k
    · subst hk
      by_cases hk' : k₀ = k' <;> simp [put, find, hk']
    · by_cases hk' : k₀ = k'
      · subst hk'
        simp [put, find, hk, Ne.symm hk]
      · simp [put, find, hk, hk', ih]

theorem lookup_set (m : OrderedMap κ ν) (k k' : κ) (v : ν) :
    (m.set k v).lookup k' = if k = k' then some v else m.lookup k' :=
  find_put k k' v m.entries

@[simp] theorem lookup_set_self (m : OrderedMap κ ν) (k : κ) (v : ν) :
    (m.set k v).lookup k = some v := by simp [lookup_set]

theorem lookup_set_of_ne (m : OrderedMap κ ν) {k k' : κ} (v : ν) (h : k ≠ k') :
    (m.set k v).lookup k' = m.lookup k' := by simp [lookup_set, h]

theorem put_put (k : κ) (v v' : ν) : ∀ l : List (κ × ν), put k v' (put k v l) = put k v' l := by
  intro l
  induction l with
  | nil => simp [put]
  | cons e l ih =>
    obtain ⟨k₀, v₀⟩ := e
    by_cases hk : k₀ = k
    · simp [put, hk]
    · simp [put, hk, ih]

/-- Of two values set at a key, the later one stands. -/
theorem set_set (m : OrderedMap κ ν) (k : κ) (v v' : ν) : (m.set k v).set k v' = m.set k v' :=
  OrderedMap.ext (put_put k v v' m.entries)

theorem find_eq_none {k : κ} : ∀ l : List (κ × ν), find k l = none ↔ k ∉ l.map Prod.fst := by
  intro l
  induction l with
  | nil => simp [find]
  | cons e l ih =>
    obtain ⟨k', v'⟩ := e
    by_cases hk : k' = k
    · subst hk
      simp [find]
    · have hk' : k ≠ k' := Ne.symm hk
      simp only [find, if_neg hk, ih, List.map_cons, List.mem_cons, not_or]
      exact ⟨fun h => ⟨hk', h⟩, fun h => h.2⟩

theorem lookup_eq_none {m : OrderedMap κ ν} {k : κ} : m.lookup k = none ↔ k ∉ m.keys :=
  find_eq_none m.entries

theorem mem_keys_of_lookup {m : OrderedMap κ ν} {k : κ} {v : ν} (h : m.lookup k = some v) :
    k ∈ m.keys := by
  by_contra hk
  simp [lookup_eq_none.mpr hk] at h

theorem exists_lookup_of_mem_keys {m : OrderedMap κ ν} {k : κ} (h : k ∈ m.keys) :
    ∃ v, m.lookup k = some v := by
  cases hl : m.lookup k with
  | none => exact absurd h (lookup_eq_none.mp hl)
  | some v => exact ⟨v, rfl⟩

theorem find_filter (p : κ → ν → Bool) (k : κ) : ∀ l : List (κ × ν), (l.map Prod.fst).Nodup →
    find k (l.filter fun e => p e.1 e.2) = (find k l).filter (p k) := by
  intro l
  induction l with
  | nil => simp [find]
  | cons e l ih =>
    obtain ⟨k', v'⟩ := e
    intro hnd
    rw [List.map_cons, List.nodup_cons] at hnd
    by_cases hk : k' = k
    · subst hk
      have hnone : find k' l = none := (find_eq_none l).mpr hnd.1
      by_cases hp : p k' v' <;> simp [find, hp, ih hnd.2, hnone, Option.filter]
    · by_cases hp : p k' v' <;> simp [find, hp, hk, ih hnd.2]

theorem lookup_filter (p : κ → ν → Bool) (m : OrderedMap κ ν) (k : κ) :
    (m.filter p).lookup k = (m.lookup k).filter (p k) :=
  find_filter p k m.entries m.nodup

theorem lookup_erase (m : OrderedMap κ ν) (k k' : κ) :
    (m.erase k).lookup k' = if k = k' then none else m.lookup k' := by
  rw [erase, lookup_filter]
  by_cases h : k = k'
  · subst h
    cases m.lookup k <;> simp
  · have h' : k' ≠ k := Ne.symm h
    cases m.lookup k' <;> simp [h, h']

@[simp] theorem lookup_erase_self (m : OrderedMap κ ν) (k : κ) : (m.erase k).lookup k = none := by
  simp [lookup_erase]

theorem lookup_erase_of_ne (m : OrderedMap κ ν) {k k' : κ} (h : k ≠ k') :
    (m.erase k).lookup k' = m.lookup k' := by simp [lookup_erase, h]

theorem mem_entries_of_lookup {m : OrderedMap κ ν} {k : κ} {v : ν} (h : m.lookup k = some v) :
    (k, v) ∈ m.entries := by
  have key : ∀ l : List (κ × ν), find k l = some v → (k, v) ∈ l := by
    intro l
    induction l with
    | nil => simp [find]
    | cons e l ih =>
      obtain ⟨k', v'⟩ := e
      by_cases hk : k' = k
      · subst hk
        intro hv
        simp only [find, if_pos, Option.some.injEq] at hv
        simp [hv]
      · intro hv
        rw [find, if_neg hk] at hv
        exact List.mem_cons_of_mem _ (ih hv)
  exact key m.entries h

theorem lookup_of_mem_entries {m : OrderedMap κ ν} {k : κ} {v : ν} (h : (k, v) ∈ m.entries) :
    m.lookup k = some v := by
  have key : ∀ l : List (κ × ν), (l.map Prod.fst).Nodup → (k, v) ∈ l → find k l = some v := by
    intro l
    induction l with
    | nil => simp
    | cons e l ih =>
      obtain ⟨k', v'⟩ := e
      intro hnd hmem
      rw [List.map_cons, List.nodup_cons] at hnd
      rcases List.mem_cons.mp hmem with heq | hmem
      · obtain ⟨rfl, rfl⟩ := Prod.mk.inj heq
        simp [find]
      · have hk : k ∈ l.map Prod.fst := List.mem_map.mpr ⟨(k, v), hmem, rfl⟩
        have hne : k' ≠ k := fun heq => hnd.1 (heq ▸ hk)
        rw [find, if_neg hne]
        exact ih hnd.2 hmem
  exact key m.entries m.nodup h

/-- Only the entry at `k` counts where `f` makes nothing of the others. -/
theorem flatMap_entries_eq {m : OrderedMap κ ν} {k : κ} {f : κ × ν → List α}
    (h : ∀ k' v, m.lookup k' = some v → k' ≠ k → f (k', v) = []) :
    m.entries.flatMap f = ((m.lookup k).map fun v => f (k, v)).getD [] := by
  have key : ∀ l : List (κ × ν), (l.map Prod.fst).Nodup → (∀ e ∈ l, e.1 ≠ k → f e = []) →
      l.flatMap f = ((find k l).map fun v => f (k, v)).getD [] := by
    intro l
    induction l with
    | nil =>
      intro _ _
      rfl
    | cons e l ih =>
      intro hnodup hl
      obtain ⟨k', v⟩ := e
      rw [List.map_cons, List.nodup_cons] at hnodup
      have hrest := ih hnodup.2 fun e he => hl e (List.mem_cons_of_mem _ he)
      rw [List.flatMap_cons, find, hrest]
      by_cases hk : k' = k
      · subst hk
        rw [if_pos rfl, (find_eq_none l).mpr hnodup.1]
        exact List.append_nil _
      · rw [if_neg hk, hl (k', v) List.mem_cons_self hk, List.nil_append]
  exact key m.entries m.nodup fun e he hne => h e.1 e.2 (lookup_of_mem_entries (m := m) he) hne

/-- Filtering that keeps everything. -/
theorem filter_eq_self {p : κ → ν → Bool} {m : OrderedMap κ ν}
    (h : ∀ k v, m.lookup k = some v → p k v = true) : m.filter p = m := by
  refine OrderedMap.ext (List.filter_eq_self.mpr fun e he => ?_)
  exact h e.1 e.2 (lookup_of_mem_entries (m := m) he)

/-- A new key is set at the end. -/
theorem entries_set_of_notMem {m : OrderedMap κ ν} {k : κ} {v : ν} (h : k ∉ m.keys) :
    (m.set k v).entries = m.entries ++ [(k, v)] := by
  have key : ∀ l : List (κ × ν), k ∉ l.map Prod.fst → put k v l = l ++ [(k, v)] := by
    intro l
    induction l with
    | nil => intro _; rfl
    | cons e l ih =>
      intro hk
      rw [List.map_cons, List.mem_cons, not_or] at hk
      rw [put, if_neg (Ne.symm hk.1), ih hk.2, List.cons_append]
  exact key m.entries h

/-- Writing at a key that is there keeps what `f` says of the entries, when it says the same of the
new value. -/
theorem map_entries_set {f : κ × ν → α} {m : OrderedMap κ ν} {k : κ} {v v' : ν}
    (h : m.lookup k = some v) (hf : f (k, v') = f (k, v)) :
    (m.set k v').entries.map f = m.entries.map f := by
  have key : ∀ l : List (κ × ν), find k l = some v → (put k v' l).map f = l.map f := by
    intro l
    induction l with
    | nil => intro hl; cases hl
    | cons e l ih =>
      intro hl
      rw [find] at hl
      rw [put]
      split_ifs at hl with hk
      · obtain rfl := Option.some.inj hl
        rw [if_pos hk, List.map_cons, List.map_cons, hf, ← hk]
      · rw [if_neg hk, List.map_cons, List.map_cons, ih hl]
  exact key m.entries h

/-- Setting a key that is there keeps its place. -/
theorem keys_set_of_mem {m : OrderedMap κ ν} {k : κ} {v : ν} (h : k ∈ m.keys) :
    (m.set k v).keys = m.keys := by
  obtain ⟨v', hlookup⟩ := exists_lookup_of_mem_keys h
  exact map_entries_set hlookup rfl

theorem keys_set_of_notMem {m : OrderedMap κ ν} {k : κ} {v : ν} (h : k ∉ m.keys) :
    (m.set k v).keys = m.keys ++ [k] := by
  rw [keys, entries_set_of_notMem h, List.map_append]
  rfl

/-- Filtering after setting a new key, when nothing else is kept. -/
theorem filter_set_of_forall {p : κ → ν → Bool} {m : OrderedMap κ ν} {k : κ} {v : ν}
    (hk : m.lookup k = none) (h : ∀ k' v', m.lookup k' = some v' → p k' v' = false)
    (hp : p k v = true) : (m.set k v).filter p = empty.set k v := by
  have key : ∀ l : List (κ × ν), k ∉ l.map Prod.fst → (∀ e ∈ l, p e.1 e.2 = false) →
      ((put k v l).filter fun e => p e.1 e.2) = [(k, v)] := by
    intro l
    induction l with
    | nil => simp [put, hp]
    | cons e l ih =>
      intro hnot hl
      rw [List.map_cons, List.mem_cons, not_or] at hnot
      rw [put, if_neg (Ne.symm hnot.1), List.filter_cons_of_neg (by simp [hl e List.mem_cons_self])]
      exact ih hnot.2 fun e' he' => hl e' (List.mem_cons_of_mem _ he')
  refine OrderedMap.ext (key m.entries (lookup_eq_none.mp hk) fun e he => ?_)
  exact h e.1 e.2 (lookup_of_mem_entries (m := m) he)

/-! ### Applying a function to the values -/

section MapVal

variable (f : ν → ν')

theorem find_map (k : κ) : ∀ l : List (κ × ν),
    find k (l.map (Prod.map id f)) = (find k l).map f := by
  intro l
  induction l with
  | nil => rfl
  | cons e l ih =>
    obtain ⟨k', v⟩ := e
    by_cases hk : k' = k <;> simp [find, hk, ih]

@[simp] theorem lookup_mapVal (m : OrderedMap κ ν) (k : κ) :
    (m.mapVal f).lookup k = (m.lookup k).map f :=
  find_map f k m.entries

theorem put_map (k : κ) (v : ν) : ∀ l : List (κ × ν),
    (put k v l).map (Prod.map id f) = put k (f v) (l.map (Prod.map id f)) := by
  intro l
  induction l with
  | nil => rfl
  | cons e l ih =>
    obtain ⟨k', v'⟩ := e
    by_cases hk : k' = k <;> simp [put, hk, ih]

omit [DecidableEq κ] in
@[simp] theorem keys_mapVal (m : OrderedMap κ ν) : (m.mapVal f).keys = m.keys := by
  simp [keys, mapVal]

@[simp] theorem mapVal_set (m : OrderedMap κ ν) (k : κ) (v : ν) :
    (m.set k v).mapVal f = (m.mapVal f).set k (f v) :=
  OrderedMap.ext (put_map f k v m.entries)

omit [DecidableEq κ] in
theorem mapVal_filter (p : κ → ν' → Bool) (m : OrderedMap κ ν) :
    (m.filter fun k v => p k (f v)).mapVal f = (m.mapVal f).filter p := by
  ext1
  show _ = (m.entries.map (Prod.map id f)).filter fun e => p e.1 e.2
  rw [List.filter_map]
  rfl

@[simp] theorem mapVal_erase (m : OrderedMap κ ν) (k : κ) :
    (m.erase k).mapVal f = (m.mapVal f).erase k :=
  mapVal_filter f (fun k' _ => k' ≠ k) m

end MapVal

/-! ### Sums over the entries -/

section Sum

variable [AddCommMonoid α]

/-- The sum of `f k v` over the entries. -/
def sum (f : κ → ν → α) (m : OrderedMap κ ν) : α := (m.entries.map fun e => f e.1 e.2).sum

omit [DecidableEq κ] in
@[simp] theorem sum_empty (f : κ → ν → α) : (empty : OrderedMap κ ν).sum f = 0 := rfl

omit [DecidableEq κ] in
theorem sum_mapVal (f : κ → ν' → α) (g : ν → ν') (m : OrderedMap κ ν) :
    (m.mapVal g).sum f = m.sum fun k v => f k (g v) := by
  rw [sum, sum, mapVal, List.map_map]
  rfl

theorem sum_filter_ne (f : κ → ν → α) (k : κ) : ∀ l : List (κ × ν), (l.map Prod.fst).Nodup →
    (l.map fun e => f e.1 e.2).sum = ((find k l).map (f k)).getD 0
      + ((l.filter fun e => e.1 ≠ k).map fun e => f e.1 e.2).sum := by
  intro l
  induction l with
  | nil => simp [find]
  | cons e l ih =>
    obtain ⟨k', v'⟩ := e
    intro hnd
    rw [List.map_cons, List.nodup_cons] at hnd
    by_cases hk : k' = k
    · subst hk
      have hall : (l.filter fun e => e.1 ≠ k') = l := by
        refine List.filter_eq_self.mpr fun e he => ?_
        have hmem : e.1 ∈ l.map Prod.fst := List.mem_map.mpr ⟨e, he, rfl⟩
        have : e.1 ≠ k' := fun hek => hnd.1 (hek ▸ hmem)
        simpa using this
      rw [List.filter_cons_of_neg (by simp), hall]
      simp [find]
    · rw [List.filter_cons_of_pos (by simpa using hk)]
      rw [List.map_cons, List.sum_cons, ih hnd.2, List.map_cons, List.sum_cons, find, if_neg hk]
      rw [← add_assoc, ← add_assoc, add_comm (f k' v')]

/-- **One entry split off a sum.** -/
theorem sum_eq_add_sum_erase (f : κ → ν → α) {m : OrderedMap κ ν} {k : κ} {v : ν}
    (h : m.lookup k = some v) : m.sum f = f k v + (m.erase k).sum f := by
  have hsplit := sum_filter_ne f k m.entries m.nodup
  rw [show find k m.entries = some v from h] at hsplit
  simpa [sum, erase, filter] using hsplit

theorem sum_erase_of_lookup_eq_none (f : κ → ν → α) {m : OrderedMap κ ν} {k : κ}
    (h : m.lookup k = none) : (m.erase k).sum f = m.sum f := by
  have hsplit := sum_filter_ne f k m.entries m.nodup
  rw [show find k m.entries = none from h] at hsplit
  simpa [sum, erase, filter] using hsplit.symm

theorem sum_erase (f : κ → ν → α) (m : OrderedMap κ ν) (k : κ) :
    (m.erase k).sum f = m.sum fun k' v => if k' = k then 0 else f k' v := by
  have key : ∀ l : List (κ × ν), ((l.filter fun e => e.1 ≠ k).map fun e => f e.1 e.2).sum
      = (l.map fun e => if e.1 = k then 0 else f e.1 e.2).sum := by
    intro l
    induction l with
    | nil => rfl
    | cons e l ih => by_cases hk : e.1 = k <;> simp [hk, ← ih]
  exact key m.entries

/-- Setting a key leaves the other entries alone. -/
theorem erase_set_entries (k : κ) (v : ν) : ∀ l : List (κ × ν),
    ((put k v l).filter fun e => e.1 ≠ k) = l.filter fun e => e.1 ≠ k := by
  intro l
  induction l with
  | nil => simp [put]
  | cons e l ih =>
    obtain ⟨k', v'⟩ := e
    by_cases hk : k' = k
    · subst hk
      simp [put]
    · rw [put, if_neg hk, List.filter_cons_of_pos (by simpa using hk),
        List.filter_cons_of_pos (by simpa using hk), ih]

theorem sum_erase_set (f : κ → ν → α) (m : OrderedMap κ ν) (k : κ) (v : ν) :
    ((m.set k v).erase k).sum f = (m.erase k).sum f := by
  have := erase_set_entries k v m.entries
  simp only [sum, erase, filter, set, this]

/-- Filtering after setting `k` and dropping `k` filters what there was besides `k`. -/
theorem sum_erase_filter_set (f : κ → ν → α) (p : κ → ν → Bool) (m : OrderedMap κ ν) (k : κ)
    (v : ν) : (((m.set k v).filter p).erase k).sum f = ((m.erase k).filter p).sum f := by
  have hentries : ((put k v m.entries).filter fun e => p e.1 e.2).filter (fun e => e.1 ≠ k)
      = (m.entries.filter fun e => e.1 ≠ k).filter fun e => p e.1 e.2 := by
    rw [List.filter_comm, erase_set_entries]
  simp only [sum, erase, filter, set, hentries]

theorem sum_set (f : κ → ν → α) (m : OrderedMap κ ν) (k : κ) (v : ν) :
    (m.set k v).sum f = f k v + (m.erase k).sum f := by
  rw [sum_eq_add_sum_erase f (m.lookup_set_self k v), sum_erase_set]

theorem sum_congr {f g : κ → ν → α} {m : OrderedMap κ ν}
    (h : ∀ k v, m.lookup k = some v → f k v = g k v) : m.sum f = m.sum g := by
  unfold sum
  congr 1
  refine List.map_congr_left fun e he => ?_
  exact h e.1 e.2 (lookup_of_mem_entries (m := m) he)

omit [DecidableEq κ] in
/-- A sum over the keys alone. -/
theorem sum_key (f : κ → α) (m : OrderedMap κ ν) : (m.sum fun k _ => f k) = (m.keys.map f).sum := by
  rw [sum, keys, List.map_map]
  rfl

omit [DecidableEq κ] in
/-- The same for every entry. -/
theorem sum_const (m : OrderedMap κ ν) (a : α) : (m.sum fun _ _ => a) = m.size • a := by
  rw [sum, List.map_const', List.sum_replicate, size]

/-- A new key in the place of another. -/
theorem sum_replace (f : κ → ν → α) {m : OrderedMap κ ν} {k j : κ} {v w : ν}
    (hk : m.lookup k = none) (hj : m.lookup j = some w) :
    f j w + ((m.erase j).set k v).sum f = f k v + m.sum f := by
  have hnone : (m.erase j).lookup k = none := by
    rw [lookup_erase]
    split
    · rfl
    · exact hk
  rw [sum_set, sum_erase_of_lookup_eq_none f hnone, sum_eq_add_sum_erase f hj, add_left_comm]

end Sum

/-! ### Sums over references

The values may be references into a heap `g`, and a sum one of what they refer to. -/

section References

variable [DecidableEq ν]

/-- Writing to a cell nothing refers to. -/
theorem sum_update_of_forall_ne [AddCommMonoid α] {m : OrderedMap κ ν} {v : ν}
    (h : ∀ k, m.lookup k ≠ some v) (g : ν → α) (a : α) :
    m.sum (fun _ => Function.update g v a) = m.sum fun _ => g := by
  refine sum_congr fun k v' hk => ?_
  have hne : v' ≠ v := fun heq => h k (heq ▸ hk)
  exact Function.update_of_ne hne a g

/-- **Writing to a cell that one entry refers to.** -/
theorem sum_update_of_lookup [AddCommGroup α] {m : OrderedMap κ ν} {k : κ} {v : ν}
    (h : m.lookup k = some v) (hinj : ∀ k', m.lookup k' = some v → k' = k) (g : ν → α) (a : α) :
    m.sum (fun _ => Function.update g v a) = m.sum (fun _ => g) + (a - g v) := by
  have hrest : ∀ k', (m.erase k).lookup k' ≠ some v := by
    intro k' hk'
    rw [lookup_erase] at hk'
    split at hk'
    · cases hk'
    · rename_i hne
      exact hne (hinj k' hk').symm
  rw [sum_eq_add_sum_erase _ h, sum_eq_add_sum_erase (fun _ => g) h, Function.update_self,
    sum_update_of_forall_ne hrest]
  abel

end References

section Order

variable [AddCommMonoid α] [PartialOrder α] [IsOrderedAddMonoid α]

theorem sum_le_sum {f g : κ → ν → α} {m : OrderedMap κ ν}
    (h : ∀ k v, m.lookup k = some v → f k v ≤ g k v) : m.sum f ≤ m.sum g := by
  refine List.sum_le_sum fun e he => ?_
  exact h e.1 e.2 (lookup_of_mem_entries (m := m) he)

theorem sum_nonneg {f : κ → ν → α} {m : OrderedMap κ ν}
    (h : ∀ k v, m.lookup k = some v → 0 ≤ f k v) : 0 ≤ m.sum f := by
  refine List.sum_nonneg fun x hx => ?_
  obtain ⟨e, he, rfl⟩ := List.mem_map.mp hx
  exact h e.1 e.2 (lookup_of_mem_entries (m := m) he)

/-- Dropping entries does not raise a sum of nonnegative terms. -/
theorem sum_filter_le {f : κ → ν → α} (p : κ → ν → Bool) {m : OrderedMap κ ν}
    (h : ∀ k v, m.lookup k = some v → 0 ≤ f k v) : (m.filter p).sum f ≤ m.sum f := by
  have key : ∀ l : List (κ × ν), (∀ e ∈ l, 0 ≤ f e.1 e.2) →
      ((l.filter fun e => p e.1 e.2).map fun e => f e.1 e.2).sum ≤
        (l.map fun e => f e.1 e.2).sum := by
    intro l
    induction l with
    | nil => simp
    | cons e l ih =>
      intro hl
      have hrest := ih fun e' he' => hl e' (List.mem_cons_of_mem _ he')
      by_cases hp : p e.1 e.2
      · simp only [List.filter_cons, hp, if_true, List.map_cons, List.sum_cons]
        exact add_le_add le_rfl hrest
      · simp only [List.filter_cons, hp, if_false, List.map_cons, List.sum_cons, Bool.false_eq_true]
        exact hrest.trans (le_add_of_nonneg_left (hl e List.mem_cons_self))
  exact key m.entries fun e he => h e.1 e.2 (lookup_of_mem_entries (m := m) he)

end Order

end OrderedMap
