import Mathlib
import ThrottleKit.Lib.FirstBest
import ThrottleKit.Lib.SpaceSaving

/-!
# The keys that drive the most traffic

Analytics count the requests of a window by key, in as many slots as a window has heavy hitters to
show. The slots are a Space-Saving summary: a key without a slot takes over that of the least count,
the first of those in the order in which keys were given slots.

## Main definitions

* `StreamSummary`, with `observe`, `clear` and `top`
* `summarize` — a stream of keys, from empty slots

## Main results

* `run_summarize` — the slots are a run of Space-Saving
* `streamSummary_bounds` — what the counts say about the stream
* `mem_top_of_frequent` — a frequent key is shown
-/

namespace ThrottleKit.Analytics

open SpaceSaving

variable {κ : Type} [LinearOrder κ]

/-- A single monitored slot. -/
structure Slot (κ : Type) where
  key : κ
  count : ℕ
  /-- The over-estimation bound. -/
  error : ℕ

/-- A key and its count. -/
structure HeavyHitter (κ : Type) where
  key : κ
  count : ℕ

/-- The capacity, which `withAnalytics` requires to be at least one, and the slots by key. -/
structure StreamSummary (κ : Type) where
  capacity : ℚ
  slots : OrderedMap κ (Slot κ)
  capacity_ge : 1 ≤ capacity

/-- `new StreamSummary(capacity)`. -/
def StreamSummary.new (capacity : ℚ) (h : 1 ≤ capacity) : StreamSummary κ := ⟨capacity, .empty, h⟩

/-- The monitored slot with the smallest count. -/
def minSlot (slots : OrderedMap κ (Slot κ)) : Option (Slot κ) :=
  match slots.entries with
  | [] => none
  | e :: es => some (firstBest (fun slot min => slot.count < min.count) e.2 (es.map Prod.snd))

/-- `observe(key)`. -/
def StreamSummary.observe (s : StreamSummary κ) (key : κ) : StreamSummary κ :=
  match s.slots.lookup key with
  | some existing =>
    { s with slots := s.slots.set key { existing with count := existing.count + 1 } }
  | none =>
    if s.slots.size < s.capacity then { s with slots := s.slots.set key ⟨key, 1, 0⟩ }
    else
      match minSlot s.slots with
      | some min =>
        { s with slots := (s.slots.erase min.key).set key ⟨key, min.count + 1, min.count⟩ }
      -- a summary that is full has a slot
      | none => s

/-- `clear()`. -/
def StreamSummary.clear (s : StreamSummary κ) : StreamSummary κ := { s with slots := .empty }

/-- `top()`: by count, the most first, and by key where counts are equal. -/
def StreamSummary.top (s : StreamSummary κ) : List (HeavyHitter κ) :=
  (s.slots.entries.map fun e => ⟨e.2.key, e.2.count⟩).insertionSort fun a b =>
    b.count < a.count ∨ b.count = a.count ∧ a.key ≤ b.key

/-- A stream of keys, from empty slots. -/
def summarize (capacity : ℚ) (h : 1 ≤ capacity) (stream : List κ) : StreamSummary κ :=
  stream.foldl StreamSummary.observe (.new capacity h)

/-! ### The slots are a run of Space-Saving -/

/-- The counts of a slot. -/
def Slot.cell (slot : Slot κ) : Cell := ⟨slot.count, slot.error⟩

/-- Every slot knows its key. -/
def Keyed (slots : OrderedMap κ (Slot κ)) : Prop :=
  ∀ k slot, slots.lookup k = some slot → slot.key = k

theorem Keyed.set {slots : OrderedMap κ (Slot κ)} (h : Keyed slots) (slot : Slot κ) :
    Keyed (slots.set slot.key slot) := by
  intro k slot' hlookup
  rw [OrderedMap.lookup_set] at hlookup
  split at hlookup
  · rename_i hk
    rw [← Option.some.inj hlookup, hk]
  · exact h k slot' hlookup

theorem Keyed.erase {slots : OrderedMap κ (Slot κ)} (h : Keyed slots) (key : κ) :
    Keyed (slots.erase key) := by
  intro k slot hlookup
  rw [OrderedMap.lookup_erase] at hlookup
  split at hlookup
  · cases hlookup
  · exact h k slot hlookup

/-- The slot that is given up is one of those with the least count. -/
theorem minSlot_spec {slots : OrderedMap κ (Slot κ)} (h : Keyed slots) (hne : slots.size ≠ 0) :
    ∃ min, minSlot slots = some min ∧ slots.lookup min.key = some min ∧
      ∀ k slot, slots.lookup k = some slot → min.count ≤ slot.count := by
  rw [minSlot]
  cases hentries : slots.entries with
  | nil => exact absurd (by rw [OrderedMap.size, hentries, List.length_nil]) hne
  | cons e es =>
    have hmem : ∀ slot, slot ∈ e.2 :: es.map Prod.snd ↔ slots.lookup slot.key = some slot := by
      intro slot
      rw [← List.map_cons, ← hentries, List.mem_map]
      constructor
      · rintro ⟨⟨k, slot⟩, hentry, rfl⟩
        have hlookup := OrderedMap.lookup_of_mem_entries hentry
        rwa [← h k slot hlookup] at hlookup
      · intro hlookup
        exact ⟨_, OrderedMap.mem_entries_of_lookup hlookup, rfl⟩
    refine ⟨_, rfl, (hmem _).mp (firstBest_mem _ _ _), fun k slot hlookup => ?_⟩
    refine firstBest_le (f := Slot.count) (fun _ _ => decide_eq_true_iff) slot ((hmem slot).mpr ?_)
    rwa [h k slot hlookup]

/-- **One more key.** -/
theorem observe_update {s : StreamSummary κ} (h : Keyed s.slots) (key : κ) :
    (s.observe key).capacity = s.capacity ∧ Keyed (s.observe key).slots ∧
      Update s.capacity (s.slots.mapVal Slot.cell) key
        ((s.observe key).slots.mapVal Slot.cell) := by
  have hsize : (s.slots.mapVal Slot.cell).size = s.slots.size := List.length_map _
  rw [StreamSummary.observe]
  cases hlookup : s.slots.lookup key with
  | some existing =>
    have hkey : existing.key = key := h key existing hlookup
    refine ⟨rfl, ?_, ?_⟩
    · have hset := h.set { existing with count := existing.count + 1 }
      dsimp only at hset ⊢
      rwa [hkey] at hset ⊢
    · rw [OrderedMap.mapVal_set]
      exact .hit (s := existing.cell) (by rw [OrderedMap.lookup_mapVal, hlookup, Option.map_some])
  | none =>
    have hnone : (s.slots.mapVal Slot.cell).lookup key = none := by
      rw [OrderedMap.lookup_mapVal, hlookup, Option.map_none]
    by_cases hroom : (s.slots.size : ℚ) < s.capacity
    · rw [if_pos hroom]
      refine ⟨rfl, h.set ⟨key, 1, 0⟩, ?_⟩
      rw [OrderedMap.mapVal_set]
      exact .room hnone (by rwa [hsize])
    · rw [if_neg hroom]
      have hne : s.slots.size ≠ 0 := by
        intro hzero
        rw [hzero, Nat.cast_zero] at hroom
        exact hroom (lt_of_lt_of_le (by norm_num) s.capacity_ge)
      obtain ⟨min, hmin, hmem, hleast⟩ := minSlot_spec h hne
      rw [hmin]
      refine ⟨rfl, (h.erase min.key).set ⟨key, min.count + 1, min.count⟩, ?_⟩
      rw [OrderedMap.mapVal_set, OrderedMap.mapVal_erase]
      refine .evict (s := min.cell) hnone (by rw [hsize]; exact not_lt.mp hroom) ?_ ?_
      · rw [OrderedMap.lookup_mapVal, hmem, Option.map_some]
      · intro k cell hcell
        rw [OrderedMap.lookup_mapVal, Option.map_eq_some_iff] at hcell
        obtain ⟨slot, hslot, rfl⟩ := hcell
        exact hleast k slot hslot

variable (capacity : ℚ) (h : 1 ≤ capacity) (stream : List κ)

theorem summarize_snoc (key : κ) :
    summarize capacity h (stream ++ [key]) = (summarize capacity h stream).observe key := by
  rw [summarize, summarize, List.foldl_concat]

/-- **The slots are a run of Space-Saving.** -/
theorem run_summarize :
    (summarize capacity h stream).capacity = capacity ∧ Keyed (summarize capacity h stream).slots ∧
      Run capacity stream ((summarize capacity h stream).slots.mapVal Slot.cell) := by
  induction stream using List.reverseRecOn with
  | nil =>
    refine ⟨rfl, fun k slot hlookup => ?_, Run.empty⟩
    cases hlookup
  | append_singleton stream key ih =>
    obtain ⟨hcapacity, hkeyed, hrun⟩ := ih
    obtain ⟨hsame, hkeyed', hupdate⟩ := observe_update hkeyed key
    rw [summarize_snoc]
    rw [hcapacity] at hsame hupdate
    exact ⟨hsame, hkeyed', .snoc hrun hupdate⟩

/-- **What the counts say about the stream**: they add up to its length, each of them is that of its
key and no more of others than its error says, and a key that makes up more than its part of the
stream is counted. -/
theorem streamSummary_bounds :
    (summarize capacity h stream).slots.sum (fun _ slot => slot.count) = stream.length ∧
      (∀ key slot, (summarize capacity h stream).slots.lookup key = some slot →
        stream.count key ≤ slot.count ∧ (slot.count : ℤ) - slot.error ≤ stream.count key) ∧
      ∀ key, (stream.length : ℚ) / capacity < stream.count key →
        key ∈ (summarize capacity h stream).slots.keys := by
  obtain ⟨-, -, hrun⟩ := run_summarize capacity h stream
  have hsummary := hrun.summary
  have hcell : ∀ key slot, (summarize capacity h stream).slots.lookup key = some slot →
      ((summarize capacity h stream).slots.mapVal Slot.cell).lookup key = some slot.cell := by
    intro key slot hlookup
    rw [OrderedMap.lookup_mapVal, hlookup, Option.map_some]
  refine ⟨?_, fun key slot hlookup => ⟨?_, ?_⟩, fun key hkey => ?_⟩
  · have htotal := hsummary.total
    rwa [OrderedMap.sum_mapVal] at htotal
  · exact hsummary.le_count key slot.cell (hcell key slot hlookup)
  · have hle := hsummary.count_le key slot.cell (hcell key slot hlookup)
    rw [Slot.cell] at hle
    dsimp only at hle
    omega
  · rw [← OrderedMap.keys_mapVal Slot.cell]
    exact hsummary.mem_keys (lt_of_lt_of_le (by norm_num) h) hkey

/-- Two slots for three keys: the last key takes over from the one before it. -/
theorem streamSummary_bounds_takeover :
    (summarize 2 one_le_two [7, 7, 7, 8, 9]).slots.sum (fun _ slot => slot.count) = 5 ∧
      7 ∈ (summarize 2 one_le_two [7, 7, 7, 8, 9]).slots.keys := by
  obtain ⟨htotal, -, hfrequent⟩ := streamSummary_bounds 2 one_le_two [7, 7, 7, 8, 9]
  have hcount : [7, 7, 7, 8, 9].count 7 = 3 := rfl
  refine ⟨htotal, hfrequent 7 ?_⟩
  rw [hcount]
  norm_num

/-- **A frequent key is shown**, with a count that is at least its own. -/
theorem mem_top_of_frequent {key : κ} (hkey : (stream.length : ℚ) / capacity < stream.count key) :
    ∃ hitter ∈ (summarize capacity h stream).top, hitter.key = key ∧
      stream.count key ≤ hitter.count := by
  obtain ⟨-, hkeyed, hrun⟩ := run_summarize capacity h stream
  have hmem := hrun.summary.mem_keys (lt_of_lt_of_le (by norm_num) h) hkey
  rw [OrderedMap.keys_mapVal] at hmem
  obtain ⟨slot, hslot⟩ := OrderedMap.exists_lookup_of_mem_keys hmem
  refine ⟨⟨slot.key, slot.count⟩, ?_, hkeyed key slot hslot, ?_⟩
  · rw [StreamSummary.top, (List.perm_insertionSort _ _).mem_iff]
    exact List.mem_map.mpr ⟨(key, slot), OrderedMap.mem_entries_of_lookup hslot, rfl⟩
  · refine hrun.summary.le_count key slot.cell ?_
    rw [OrderedMap.lookup_mapVal, hslot, Option.map_some]

end ThrottleKit.Analytics
