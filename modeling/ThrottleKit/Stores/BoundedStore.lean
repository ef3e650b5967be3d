import ThrottleKit.Lib.Machine
import ThrottleKit.Lib.OrderedMap
import ThrottleKit.Lib.SlotTable
import ThrottleKit.Stores.MemoryStore

/-!
# The bounded in-process store

The store with `maxKeys`. Every key of the map has a slot of a ring, the slots that a reset or an
expiry emptied are on a free list, and a new key takes one of those, or a new slot while the ring
has fewer than `maxKeys`, or the slot of a key that the hand of the ring evicts. The hand clears the
reference bits of the keys it passes, and takes the first that has none or has expired.

An eviction is reported with the store it was decided on, so that what the store had to offer
otherwise can be read off a run.

## Main definitions

* `Bounded` — the map, the wheel, the ring, its free list and its hand
* `scan`, `insert`, `applySync`, `resetSync`, `advance`, `close` — the operations
* `Sound` — the map, the ring and the free list say the same, within `maxKeys`
* `Eviction.Forced` — every slot had a key, and the scan came to one

## Main results

* `scan_spec` — the scan ends with a victim
* `Sound.apply` and the others — every operation keeps the store sound
* `bounded_sound` — the store is sound and within `maxKeys` after every run, and evicts only where
  it is forced to
-/

namespace ThrottleKit.BoundedStore

open TimingWheel SlotTable
open MemoryStore (Outcome)

/-- An entry of the map. -/
structure Entry (S : Type) where
  state : Option S
  /-- Set on access, cleared by the hand. -/
  ref : Bool
  /-- Index into the ring. -/
  slot : ℕ
  exp : Deadline

/-- The store. -/
structure Bounded (S : Type) where
  map : OrderedMap String (Entry S)
  wheel : Wheel
  /-- The keys by slot; none where a slot is empty. -/
  ring : List (Option String)
  /-- The slots that were emptied, the last of them on top. -/
  freeSlots : List ℕ
  hand : ℕ

variable {S R : Type}

/-- A new store at `now`. -/
def Bounded.start (o : Options) (now : ℚ) : Bounded S := ⟨.empty, .start o now, [], [], 0⟩

/-- Remove a key from the map and release its slot. It does not touch the wheel. -/
def drop (m : Bounded S) (key : String) : Bounded S :=
  match m.map.lookup key with
  | some e =>
    { m with
      map := m.map.erase key
      ring := m.ring.set e.slot none
      freeSlots := m.freeSlots ++ [e.slot] }
  | none => m

/-- Drop a key and take it off the wheel. -/
def discard (m : Bounded S) (key : String) : Bounded S :=
  { drop m key with wheel := (drop m key).wheel.delete key }

/-- Advance the wheel, dropping the keys that expired. -/
def advance (o : Options) (m : Bounded S) (now : ℚ) : Bounded S :=
  let r := m.wheel.advance o now
  r.2.foldl drop { m with wheel := r.1 }

/-- Lazy expiry of a key. -/
def expire (m : Bounded S) (key : String) (now : ℚ) : Bounded S :=
  match m.map.lookup key with
  | some e => if e.exp.passed now then discard m key else m
  | none => m

/-- The map and the wheel without a key, whose slot is to be overwritten. -/
def evict (m : Bounded S) (key : String) : Bounded S :=
  { m with map := m.map.erase key, wheel := m.wheel.delete key }

/-- What the hand came to: a slot, and the key that was evicted from it. -/
structure Found where
  slot : ℕ
  victim : Option String
deriving DecidableEq

/-- The rounds of `#evictSlot` that are left; none when it runs out of them. -/
def scan (now : ℚ) : ℕ → Bounded S → Bounded S × Option Found
  | 0, m => (m, none)
  | rounds + 1, m =>
    let slot := m.hand
    let m := { m with hand := (m.hand + 1) % m.ring.length }
    match m.ring[slot]?.join with
    | none => (m, some ⟨slot, none⟩)
    | some k =>
      match m.map.lookup k with
      | none => (m, some ⟨slot, none⟩)
      | some e =>
        if e.exp.passed now then (evict m k, some ⟨slot, some k⟩)
        else if e.ref then scan now rounds { m with map := m.map.set k { e with ref := false } }
        else (evict m k, some ⟨slot, some k⟩)

/-- A scan for a slot: the store it was decided on, and what the hand came to. -/
structure Eviction (S : Type) where
  before : Bounded S
  found : Option Found

/-- `#insert(key, state, exp, now)`, with the eviction that it took. -/
def insert (maxKeys : ℕ) (m : Bounded S) (key : String) (state : Option S) (exp : Deadline)
    (now : ℚ) : Bounded S × List (Eviction S) :=
  match m.freeSlots.getLast? with
  | some reused =>
    ({ m with
        map := m.map.set key ⟨state, false, reused, exp⟩
        ring := m.ring.set reused (some key)
        freeSlots := m.freeSlots.dropLast }, [])
  | none =>
    if m.ring.length < maxKeys then
      ({ m with
          map := m.map.set key ⟨state, false, m.ring.length, exp⟩
          ring := m.ring ++ [some key] }, [])
    else
      let r := scan now (m.ring.length * 2 + 1) m
      -- A scan that ran out would end at the hand.
      let slot := match r.2 with
        | some found => found.slot
        | none => r.1.hand
      ({ r.1 with
          map := r.1.map.set key ⟨state, false, slot, exp⟩
          ring := r.1.ring.set slot (some key) }, [⟨m, r.2⟩])

/-- `applySync(key, transform, now)`, with the eviction that it took. -/
def applySync (o : Options) (maxKeys : ℕ) (m : Bounded S) (key : String)
    (transform : Option S → Outcome S R) (now : ℚ) : Bounded S × R × List (Eviction S) :=
  let m := expire (advance o m now) key now
  match m.map.lookup key with
  | some e =>
    let out := transform e.state
    if out.persist then
      let exp := out.ttlMs.deadline now
      ({ m with
          map := m.map.set key ⟨out.state, true, e.slot, exp⟩
          wheel := m.wheel.set o key exp }, out.result, [])
    else ({ m with map := m.map.set key { e with ref := true } }, out.result, [])
  | none =>
    let out := transform none
    if out.persist then
      let exp := out.ttlMs.deadline now
      let r := insert maxKeys m key out.state exp now
      ({ r.1 with wheel := r.1.wheel.set o key exp }, out.result, r.2)
    else (m, out.result, [])

/-- `close()`. The hand and the wheel stay as they are. -/
def close (m : Bounded S) : Bounded S := { m with map := .empty, ring := [], freeSlots := [] }

/-- An operation on the store. An update that keeps nothing is a peek. -/
inductive Op (S R : Type)
  | apply (key : String) (transform : Option S → Outcome S R) (now : ℚ)
  | reset (key : String)
  | sweep (now : ℚ)
  | close

/-- The store at its operations, with its evictions as outputs. -/
def machine (o : Options) (maxKeys : ℕ) : Machine (Bounded S) (Op S R) (Eviction S) := fun m op =>
  match op with
  | .apply key transform now =>
    let r := applySync o maxKeys m key transform now
    some (r.1, r.2.2)
  | .reset key => some (discard m key, [])
  | .sweep now => some (advance o m now, [])
  | .close => some (close m, [])

/-! ### The invariant -/

/-- The slot of a key. -/
def slotOf (map : OrderedMap String (Entry S)) (key : String) : Option ℕ :=
  (map.lookup key).map Entry.slot

/-- The map, the ring and the free list say the same, and the ring is within `maxKeys`. -/
structure Sound (maxKeys : ℕ) (m : Bounded S) : Prop where
  table : Consistent (slotOf m.map) m.ring m.freeSlots
  length_le : m.ring.length ≤ maxKeys
  hand_lt : m.hand < maxKeys

/-- The eviction was forced: no slot was empty and no further one allowed. And the hand came to a
key of the map. -/
structure Eviction.Forced (maxKeys : ℕ) (ev : Eviction S) : Prop where
  freeSlots : ev.before.freeSlots = []
  length : ev.before.ring.length = maxKeys
  occupied : ∀ s < maxKeys, ∃ k, ev.before.ring[s]? = some (some k) ∧
    slotOf ev.before.map k = some s
  victim : ∃ s k, ev.found = some ⟨s, some k⟩ ∧ slotOf ev.before.map k = some s

variable {o : Options} {maxKeys : ℕ} {m : Bounded S} {key : String} {now : ℚ}

theorem sound_start (o : Options) (hpos : 0 < maxKeys) (now : ℚ) :
    Sound maxKeys (Bounded.start o now : Bounded S) where
  table := consistent_nil
  length_le := Nat.zero_le _
  hand_lt := hpos

theorem slotOf_erase (map : OrderedMap String (Entry S)) (key : String) :
    slotOf (map.erase key) = Function.update (slotOf map) key none := by
  funext k
  rw [slotOf, OrderedMap.lookup_erase]
  by_cases hk : key = k
  · subst hk
    simp
  · rw [if_neg hk, Function.update_of_ne (Ne.symm hk), slotOf]

theorem slotOf_set (map : OrderedMap String (Entry S)) (key : String) (e : Entry S) :
    slotOf (map.set key e) = Function.update (slotOf map) key (some e.slot) := by
  funext k
  rw [slotOf, OrderedMap.lookup_set]
  by_cases hk : key = k
  · subst hk
    simp
  · rw [if_neg hk, Function.update_of_ne (Ne.symm hk), slotOf]

theorem slotOf_of_lookup {map : OrderedMap String (Entry S)} {e : Entry S}
    (he : map.lookup key = some e) : slotOf map key = some e.slot := by
  rw [slotOf, he]
  rfl

/-- Writing an entry in place, its slot as it was. -/
theorem slotOf_set_of_lookup {map : OrderedMap String (Entry S)} {e e' : Entry S}
    (he : map.lookup key = some e) (hslot : e'.slot = e.slot) :
    slotOf (map.set key e') = slotOf map := by
  rw [slotOf_set, hslot, ← slotOf_of_lookup he, Function.update_eq_self]

/-! ### Dropping -/

theorem Sound.drop (h : Sound maxKeys m) (key : String) : Sound maxKeys (drop m key) := by
  unfold BoundedStore.drop
  split
  · rename_i e he
    refine ⟨?_, ?_, h.hand_lt⟩
    · show Consistent (slotOf (m.map.erase key)) _ _
      rw [slotOf_erase]
      exact h.table.release (slotOf_of_lookup he)
    · rw [List.length_set]
      exact h.length_le
  · exact h

theorem Sound.discard (h : Sound maxKeys m) (key : String) : Sound maxKeys (discard m key) :=
  ⟨(h.drop key).table, (h.drop key).length_le, (h.drop key).hand_lt⟩

theorem Sound.foldl_drop (h : Sound maxKeys m) (keys : List String) :
    Sound maxKeys (keys.foldl BoundedStore.drop m) := by
  induction keys generalizing m with
  | nil => exact h
  | cons key keys ih => exact ih (h.drop key)

theorem Sound.advance (o : Options) (h : Sound maxKeys m) (now : ℚ) :
    Sound maxKeys (advance o m now) := by
  have hwheel : Sound maxKeys { m with wheel := (m.wheel.advance o now).1 } :=
    ⟨h.table, h.length_le, h.hand_lt⟩
  exact hwheel.foldl_drop _

theorem Sound.expire (h : Sound maxKeys m) (key : String) (now : ℚ) :
    Sound maxKeys (expire m key now) := by
  unfold BoundedStore.expire
  split
  · split
    · exact h.discard key
    · exact h
  · exact h

theorem Sound.close (h : Sound maxKeys m) : Sound maxKeys (close m) where
  table := consistent_nil
  length_le := Nat.zero_le _
  hand_lt := h.hand_lt

/-- Writing an entry in place keeps the store sound. -/
theorem Sound.write (h : Sound maxKeys m) {e : Entry S} (he : m.map.lookup key = some e)
    (e' : Entry S) (hslot : e'.slot = e.slot) (wheel : Wheel) :
    Sound maxKeys { m with map := m.map.set key e', wheel := wheel } where
  table := by
    show Consistent (slotOf (m.map.set key e')) _ _
    rw [slotOf_set_of_lookup he hslot]
    exact h.table
  length_le := h.length_le
  hand_lt := h.hand_lt

/-! ### The scan -/

/-- How many keys have their reference bit set. -/
def refs (map : OrderedMap String (Entry S)) : ℕ := map.sum fun _ e => if e.ref then 1 else 0

theorem refs_le_size (map : OrderedMap String (Entry S)) : refs map ≤ map.size := by
  calc refs map ≤ map.sum fun _ _ => 1 := by
        refine OrderedMap.sum_le_sum fun k e _ => ?_
        split_ifs <;> omega
    _ = map.size := by simp [OrderedMap.sum_const]

/-- The keys and the free slots make up the ring. -/
theorem Sound.size_add_length (h : Sound maxKeys m) :
    m.map.size + m.freeSlots.length = m.ring.length := by
  have hkeys : m.map.size = m.map.keys.length := by rw [OrderedMap.keys, List.length_map]; rfl
  rw [hkeys]
  refine h.table.length_add_length m.map.nodup fun k => ?_
  rw [slotOf, Ne, Option.map_eq_none_iff, OrderedMap.lookup_eq_none, not_not]

theorem Sound.size_le (h : Sound maxKeys m) : m.map.size ≤ maxKeys := by
  have hsize := h.size_add_length
  have hlength := h.length_le
  omega

/-- Clearing a reference bit. -/
theorem refs_clear {map : OrderedMap String (Entry S)} {e : Entry S} (he : map.lookup key = some e)
    (href : e.ref = true) : refs (map.set key { e with ref := false }) + 1 = refs map := by
  rw [refs, refs, OrderedMap.sum_set, OrderedMap.sum_eq_add_sum_erase _ he, href]
  simp [add_comm]

/-- **The scan ends with a victim**: the hand comes to a key that has expired or whose reference bit
is clear, before it has passed more keys than have theirs set. -/
theorem scan_spec (h : Sound maxKeys m) (hfree : m.freeSlots = []) (hfull : m.ring.length = maxKeys)
    {rounds : ℕ} (hrounds : refs m.map < rounds) :
    ∃ m' k s, scan now rounds m = (evict m' k, some ⟨s, some k⟩) ∧ Sound maxKeys m' ∧
      m'.ring = m.ring ∧ m'.freeSlots = [] ∧ slotOf m'.map = slotOf m.map ∧
      slotOf m.map k = some s := by
  induction rounds generalizing m with
  | zero => omega
  | succ rounds ih =>
    have hhand : m.hand < m.ring.length := hfull ▸ h.hand_lt
    have hpos : 0 < m.ring.length := by omega
    obtain ⟨k, hring, hslot⟩ := (hfree ▸ h.table).exists_key hhand
    obtain ⟨e, he, -⟩ := Option.map_eq_some_iff.mp hslot
    have hmoved : Sound maxKeys { m with hand := (m.hand + 1) % m.ring.length } :=
      ⟨h.table, h.length_le, hfull ▸ Nat.mod_lt _ hpos⟩
    have hjoin : m.ring[m.hand]?.join = some k := by rw [hring]; rfl
    rw [scan]
    simp only [hjoin, he]
    split_ifs with hpassed href
    · exact ⟨_, k, m.hand, rfl, hmoved, rfl, hfree, rfl, hslot⟩
    · -- A reference bit is cleared, so there are fewer of them for the rounds that are left.
      have hclear := refs_clear he href
      have hless : refs (m.map.set k { e with ref := false }) < rounds := by omega
      have hsame : slotOf (m.map.set k { e with ref := false }) = slotOf m.map :=
        slotOf_set_of_lookup he rfl
      obtain ⟨m', k', s', hscan, hsound, hring', hfree', hslots, hk'⟩ :=
        ih (hmoved.write he { e with ref := false } rfl m.wheel) hfree hfull hless
      exact ⟨m', k', s', hscan, hsound, hring', hfree', hslots.trans hsame,
        (congrFun hsame k').symm.trans hk'⟩
    · exact ⟨_, k, m.hand, rfl, hmoved, rfl, hfree, rfl, hslot⟩

/-! ### Inserting -/

/-- The ring has a slot to give only through its free list or below `maxKeys`. -/
theorem Sound.insert (h : Sound maxKeys m) (hkey : m.map.lookup key = none) (state : Option S)
    (exp : Deadline) (now : ℚ) :
    Sound maxKeys (insert maxKeys m key state exp now).1 ∧
      ∀ ev ∈ (insert maxKeys m key state exp now).2, ev.Forced maxKeys := by
  have hnone : slotOf m.map key = none := by rw [slotOf, hkey]; rfl
  unfold BoundedStore.insert
  split
  · rename_i reused hreused
    refine ⟨⟨?_, ?_, h.hand_lt⟩, by simp⟩
    · show Consistent (slotOf (m.map.set key _)) _ _
      rw [slotOf_set]
      exact h.table.reuse hnone hreused
    · rw [List.length_set]
      exact h.length_le
  · rename_i hempty
    have hfree : m.freeSlots = [] := List.getLast?_eq_none_iff.mp hempty
    split_ifs with hlt
    · refine ⟨⟨?_, ?_, h.hand_lt⟩, by simp⟩
      · show Consistent (slotOf (m.map.set key _)) _ _
        rw [slotOf_set]
        exact h.table.grow hnone
      · rw [List.length_append, List.length_singleton]
        exact hlt
    · have hfull : m.ring.length = maxKeys := le_antisymm h.length_le (not_lt.mp hlt)
      have hrounds : refs m.map < m.ring.length * 2 + 1 := by
        have hrefs := refs_le_size m.map
        have hsize := h.size_add_length
        omega
      obtain ⟨m', k, s, hscan, hsound, hring, hfree', hslots, hk⟩ :=
        @scan_spec _ _ _ now h hfree hfull _ hrounds
      rw [hscan]
      constructor
      · refine ⟨?_, ?_, hsound.hand_lt⟩
        · show Consistent (slotOf ((m'.map.erase k).set key _)) _ _
          rw [slotOf_set, slotOf_erase]
          exact hsound.table.replace (by rw [hslots, hk]) (by rw [hslots, hnone])
        · rw [List.length_set]
          exact hsound.length_le
      · intro ev hev
        obtain rfl := List.mem_singleton.mp hev
        refine ⟨hfree, hfull, fun t ht => ?_, s, k, rfl, hk⟩
        exact (hfree ▸ h.table).exists_key (hfull ▸ ht)

/-! ### Operations and runs -/

theorem Sound.apply (o : Options) (h : Sound maxKeys m) (key : String)
    (transform : Option S → Outcome S R) (now : ℚ) :
    Sound maxKeys (applySync o maxKeys m key transform now).1 ∧
      ∀ ev ∈ (applySync o maxKeys m key transform now).2.2, ev.Forced maxKeys := by
  have hexp := (h.advance o now).expire key now
  unfold applySync
  dsimp only
  split
  · rename_i e he
    split_ifs
    · exact ⟨hexp.write he ⟨_, true, e.slot, _⟩ rfl _, by simp⟩
    · exact ⟨hexp.write he { e with ref := true } rfl _, by simp⟩
  · rename_i hnone
    split_ifs
    · obtain ⟨hsound, hforced⟩ := hexp.insert hnone (transform none).state
        ((transform none).ttlMs.deadline now) now
      exact ⟨⟨hsound.table, hsound.length_le, hsound.hand_lt⟩, hforced⟩
    · exact ⟨hexp, by simp⟩

/-- Every operation keeps the store sound, and evicts only where it is forced to. -/
theorem Sound.step (o : Options) (h : Sound maxKeys m) {op : Op S R} {m' : Bounded S}
    {new : List (Eviction S)} (hstep : machine o maxKeys m op = some (m', new)) :
    Sound maxKeys m' ∧ ∀ ev ∈ new, ev.Forced maxKeys := by
  cases op with
  | apply key transform now =>
    obtain ⟨rfl, rfl⟩ := Prod.mk.inj (Option.some.inj hstep)
    exact h.apply o key transform now
  | reset key =>
    obtain ⟨rfl, rfl⟩ := Prod.mk.inj (Option.some.inj hstep)
    exact ⟨h.discard key, by simp⟩
  | sweep now =>
    obtain ⟨rfl, rfl⟩ := Prod.mk.inj (Option.some.inj hstep)
    exact ⟨h.advance o now, by simp⟩
  | close =>
    obtain ⟨rfl, rfl⟩ := Prod.mk.inj (Option.some.inj hstep)
    exact ⟨h.close, by simp⟩

/-- **The bounded store is sound after every run**: the map and the ring are in bijection, the free
list has the empty slots, the map has at most `maxKeys` entries, and every eviction was forced and
came to a key. -/
theorem bounded_sound (o : Options) (hpos : 0 < maxKeys) (created : ℚ)
    {ok : Bounded S → Op S R → Prop} {log : List (Eviction S)} {m : Bounded S}
    (h : Machine.Run (machine o maxKeys) ok (Bounded.start o created) log m) :
    Sound maxKeys m ∧ m.map.size + m.freeSlots.length = m.ring.length ∧ m.map.size ≤ maxKeys ∧
      ∀ ev ∈ log, ev.Forced maxKeys := by
  have hrun : Sound maxKeys m ∧ ∀ ev ∈ log, ev.Forced maxKeys := by
    refine h.invariant (I := fun m log => Sound maxKeys m ∧ ∀ ev ∈ log, ev.Forced maxKeys)
      ⟨sound_start o hpos created, by simp⟩ ?_
    rintro m log op m' new ⟨hm, hlog⟩ _ hstep
    obtain ⟨hm', hnew⟩ := hm.step o hstep
    refine ⟨hm', fun ev hev => ?_⟩
    rcases List.mem_append.mp hev with hev | hev
    · exact hlog ev hev
    · exact hnew ev hev
  exact ⟨hrun.1, hrun.1.size_add_length, hrun.1.size_le, hrun.2⟩

/-- Two keys at most: both are accessed, a third evicts one, one is reset and its slot reused. -/
def thirdKey : List (Op ℕ ℕ) :=
  [.apply "a" (MemoryStore.counting (.ms 5000)) 0, .apply "b" (MemoryStore.counting .forever) 0,
    .apply "a" (MemoryStore.counting (.ms 5000)) 10, .apply "c" (MemoryStore.counting (.ms 100)) 20,
    .reset "a", .apply "d" (MemoryStore.counting (.ms 100)) 30, .sweep 9000]

theorem bounded_sound_thirdKey : ∃ log m,
    Machine.Run (machine (S := ℕ) (R := ℕ) MemoryStore.coarse 2) (fun _ _ => True)
        (Bounded.start MemoryStore.coarse 0) log m ∧
      log.map Eviction.found = [some ⟨1, some "b"⟩] ∧
      Sound 2 m ∧ m.map.size + m.freeSlots.length = m.ring.length ∧ m.map.size ≤ 2 ∧
      ∀ ev ∈ log, ev.Forced 2 := by
  have hrun := Machine.run_of_isSome (m := machine MemoryStore.coarse 2) (p := fun _ _ => True)
    (s := Bounded.start MemoryStore.coarse 0) (l := thirdKey) (by decide +kernel)
    (by simp [Machine.AllOk, thirdKey])
  exact ⟨_, _, hrun, by decide +kernel, bounded_sound MemoryStore.coarse (by decide) 0 hrun⟩

end ThrottleKit.BoundedStore
