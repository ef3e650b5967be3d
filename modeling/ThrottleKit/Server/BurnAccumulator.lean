import Mathlib.Data.List.DropRight
import Mathlib.Data.List.Sort
import Mathlib.Data.Rat.Floor
import Mathlib.Order.WithBot
import ThrottleKit.Lib.Doubles
import ThrottleKit.Lib.OrderedMap
import ThrottleKit.Lib.RingSlice

/-!
# The burn accumulator

Once a frame the accumulator reads how much each tenant of a budget has used in its window, and
keeps the increments of the busiest tenants in rings. The rate of a tenant is what its ring sums up
to over the time it spans. A ring starts anew when the window moves, and is dropped when it moves
back or the tenant is not among the busiest.

The clock may read anything, and a tenant may be on the roster more than once: each entry is a
reading of its own. Arithmetic is that of double precision, so a rate is finite only as long as the
clock reads numbers and the increments are not too large for the time.

## Main definitions

* `RingBuffer`, `BurnAccumulator`, `rate` — the accumulator
* `contiguous`, `retained` — the frames that belong together, and the readings that are kept of them
* `InRange` — neither the clock nor the increments leave the numbers

## Main results

* `follows_run` — what the rings hold after any frames
* `stretch_reverse` — the frames that the readings of a ring come from
* `rate_is_finite_iff` — the rate after any frames, and when it is finite
-/

namespace ThrottleKit.Monitor

open RingSlice

/-! ### The ring buffer -/

/-- A ring buffer. -/
structure RingBuffer (T : Type) where
  cap : ℕ
  buf : ℕ → Option T
  size : ℕ
  /-- Index of the oldest entry. -/
  head : ℕ
  head_lt : head < cap
  size_le : size ≤ cap

namespace RingBuffer

variable {T : Type}

/-- `new RingBuffer(capacity)`. -/
def new (capacity : ℕ) : RingBuffer T where
  cap := max 1 capacity
  buf _ := none
  size := 0
  head := 0
  head_lt := Nat.lt_of_lt_of_le one_pos (le_max_left _ _)
  size_le := Nat.zero_le _

/-- `push(item)`. -/
def push (r : RingBuffer T) (item : T) : RingBuffer T :=
  if h : r.size < r.cap then
    { r with
      buf := Function.update r.buf ((r.head + r.size) % r.cap) (some item)
      size := r.size + 1
      size_le := h }
  else
    { r with
      buf := Function.update r.buf r.head (some item)
      head := (r.head + 1) % r.cap
      head_lt := Nat.mod_lt _ (Nat.zero_lt_of_lt r.head_lt) }

/-- `toArray()`. -/
def toArray (r : RingBuffer T) : List (Option T) := slice r.buf r.cap r.head r.size

/-- `clear()`. -/
def clear (r : RingBuffer T) : RingBuffer T :=
  { r with
    buf := fun _ => none
    size := 0
    head := 0
    head_lt := Nat.zero_lt_of_lt r.head_lt
    size_le := Nat.zero_le _ }

end RingBuffer

/-! ### The accumulator -/

/-- `num(x)`. -/
def num : Double → ℚ
  | .finite x => max 0 x
  | _ => 0

/-- A tenant of a roster as it is read; `none` for a key that is no string. -/
structure RosterEntry where
  tenant : Option String
  weight : Double
  used : Double

/-- The stats of a frame. -/
structure CostRoomStats where
  windowStart : Double
  tenants : List RosterEntry

/-- A validated reading of a tenant. -/
structure TenantReading where
  key : String
  used : ℚ
  weight : ℚ

/-- `readTenant(t)`. -/
def readTenant (t : RosterEntry) : Option TenantReading :=
  match t.tenant with
  | none => none
  | some key => if key = "" then none else some ⟨key, num t.used, num t.weight⟩

/-- `collectValid(stats)`. -/
def collectValid (stats : CostRoomStats) : List TenantReading := stats.tenants.filterMap readTenant

/-- The readings by what was used, most first. -/
def sortByUsed (valid : List TenantReading) : List TenantReading :=
  valid.insertionSort fun a b => b.used ≤ a.used

/-- The validated roster of a frame. -/
structure ValidatedRoster where
  valid : List TenantReading
  sorted : List TenantReading

/-- `validateRoster(stats)`. -/
def validateRoster (stats : CostRoomStats) : ValidatedRoster :=
  ⟨collectValid stats, sortByUsed (collectValid stats)⟩

/-- A sample of a ring: when it was taken, and the increment since the last. -/
structure BurnSample where
  time : Double
  deltaUsed : Double

/-- The ring of a tenant. -/
structure TenantSeries where
  ring : RingBuffer BurnSample
  lastUsed : ℚ

/-- The state of a `BurnAccumulator`. -/
structure BurnAccumulator where
  ringSize : ℕ
  maxKeys : ℕ
  series : OrderedMap String TenantSeries
  /-- The window start of the last frame; `-Infinity` at the bottom. -/
  lastWindowStart : WithBot ℚ

/-- `Number.isFinite(stats.windowStart) ? stats.windowStart : -Infinity`. -/
def CostRoomStats.ws (stats : CostRoomStats) : WithBot ℚ :=
  match stats.windowStart with
  | .finite x => x
  | _ => ⊥

namespace BurnAccumulator

/-- `new BurnAccumulator(ringSize, maxKeys)`. -/
def new (ringSize maxKeys : ℚ) : BurnAccumulator :=
  ⟨max 2 ⌊ringSize⌋₊, max 1 ⌊maxKeys⌋₊, .empty, ⊥⟩

/-- A series as it starts. -/
def freshSeries (ringSize : ℕ) : TenantSeries := ⟨.new ringSize, 0⟩

/-- The window of a frame against that of the last one: rings start anew, or are dropped. -/
def turnWindow (acc : BurnAccumulator) (ws : WithBot ℚ) : BurnAccumulator :=
  if acc.lastWindowStart < ws then
    { acc with
      series := acc.series.mapVal fun series => ⟨series.ring.clear, 0⟩
      lastWindowStart := ws }
  else if ws < acc.lastWindowStart then { acc with series := .empty, lastWindowStart := ws }
  else acc

/-- The readings of a frame that get a ring. -/
def selected (maxKeys : ℕ) (stats : CostRoomStats) (roster : Option ValidatedRoster) :
    List TenantReading :=
  let valid := (roster.map ValidatedRoster.valid).getD (collectValid stats)
  if valid.length > maxKeys then
    ((roster.map ValidatedRoster.sorted).getD (sortByUsed valid)).take maxKeys
  else valid

/-- `Math.max(0, used - lastUsed)`. -/
def increment (lastUsed used : ℚ) : Double :=
  Double.maxZero (Double.sub (.finite used) (.finite lastUsed))

/-- A reading goes into the ring of its tenant. -/
def TenantSeries.observe (series : TenantSeries) (now : Double) (used : ℚ) : TenantSeries :=
  ⟨series.ring.push ⟨now, increment series.lastUsed used⟩, used⟩

/-- A reading goes into the rings. -/
def record (ringSize : ℕ) (now : Double) (series : OrderedMap String TenantSeries)
    (r : TenantReading) :
    OrderedMap String TenantSeries :=
  series.set r.key
    (TenantSeries.observe ((series.lookup r.key).getD (freshSeries ringSize)) now r.used)

/-- `sample(stats, now, roster)`. -/
def sample (acc : BurnAccumulator) (stats : CostRoomStats) (now : Double)
    (roster : Option ValidatedRoster) : BurnAccumulator :=
  let acc := acc.turnWindow stats.ws
  if stats.ws = ⊥ then acc
  else
    let selected := selected acc.maxKeys stats roster
    let present := selected.map TenantReading.key
    let series := selected.foldl (record acc.ringSize now) acc.series
    { acc with series := series.filter fun tenant _ => tenant ∈ present }

/-- `rate(tenant, minSpanMs)`. -/
def rate (acc : BurnAccumulator) (tenant : String) (minSpanMs : Double) : Option Double :=
  match acc.series.lookup tenant with
  | none => none
  | some series =>
    let s := series.ring.toArray
    if s.length < 2 then none
    else
      match s.head?.join, s.getLast?.join with
      | some first, some last =>
        let spanMs := last.time.sub first.time
        if spanMs.le (.finite 0) ∨ spanMs.lt minSpanMs then none
        else
          let inc := Double.sum (s.tail.map fun e => (e.map BurnSample.deltaUsed).getD (.finite 0))
          some (inc.div (spanMs.div (.finite 1000)))
      | _, _ => none

end BurnAccumulator

/-! ### Frames and readings -/

/-- A frame: its stats, the clock, and whether the roster is validated beforehand. -/
structure Frame where
  stats : CostRoomStats
  time : Double
  shared : Bool

/-- The roster that is passed along with a frame. -/
def Frame.roster (f : Frame) : Option ValidatedRoster :=
  if f.shared then some (validateRoster f.stats) else none

/-- The accumulator after frames. -/
def run (ringSize maxKeys : ℚ) (frames : List Frame) : BurnAccumulator :=
  frames.foldl (fun acc f => acc.sample f.stats f.time f.roster) (.new ringSize maxKeys)

/-- What a tenant has used at a time. -/
structure Reading where
  time : Double
  used : ℚ

/-- The readings of a tenant in a frame. -/
def Frame.readings (maxKeys : ℕ) (f : Frame) (tenant : String) : List Reading :=
  ((BurnAccumulator.selected maxKeys f.stats none).filter fun r => r.key = tenant).map
    fun r => ⟨f.time, r.used⟩

/-- The readings of a tenant that belong to the last of the frames, the newest of which comes first:
back to where the window was another or the tenant had no reading. -/
def stretch (maxKeys : ℕ) (tenant : String) : List Frame → List Reading
  | [] => []
  | f :: older =>
    if f.stats.ws = ⊥ ∨ f.readings maxKeys tenant = [] then []
    else
      (if older.head?.map (fun g => g.stats.ws) = some f.stats.ws then stretch maxKeys tenant older
        else []) ++ f.readings maxKeys tenant

/-- The positive increments from each reading to the next. -/
def increments : List Reading → List Double
  | r :: r' :: rs => BurnAccumulator.increment r.used r'.used :: increments (r' :: rs)
  | _ => []

/-- The rate of readings over the time between the first and the last. -/
def spanRate (minSpanMs : Double) (readings : List Reading) : Option Double :=
  match readings.head?, readings.getLast? with
  | some first, some last =>
    let spanMs := last.time.sub first.time
    if readings.length < 2 ∨ spanMs.le (.finite 0) ∨ spanMs.lt minSpanMs then none
    else some ((Double.sum (increments readings)).div (spanMs.div (.finite 1000)))
  | _, _ => none

/-! ### What a ring holds -/

/-- The samples of readings, after one of `base`. -/
def samplesFrom (base : ℚ) : List Reading → List BurnSample
  | [] => []
  | r :: rs => ⟨r.time, BurnAccumulator.increment base r.used⟩ :: samplesFrom r.used rs

/-- What was used at the last reading. -/
def lastUsed (base : ℚ) (readings : List Reading) : ℚ :=
  (readings.getLast?.map Reading.used).getD base

theorem samplesFrom_concat (base : ℚ) (readings : List Reading) (r : Reading) :
    samplesFrom base (readings ++ [r])
      = samplesFrom base readings
        ++ [⟨r.time, BurnAccumulator.increment (lastUsed base readings) r.used⟩] := by
  induction readings generalizing base with
  | nil => rfl
  | cons r' rs ih =>
    rw [List.cons_append, samplesFrom, ih, samplesFrom, List.cons_append]
    cases rs with
    | nil => rfl
    | cons r'' rs => rfl

@[simp] theorem length_samplesFrom (base : ℚ) (readings : List Reading) :
    (samplesFrom base readings).length = readings.length := by
  induction readings generalizing base with
  | nil => rfl
  | cons r rs ih => rw [samplesFrom, List.length_cons, ih, List.length_cons]

/-- Samples without the first ones are those of the readings without the first ones. -/
theorem drop_samplesFrom (n : ℕ) (base : ℚ) (readings : List Reading) :
    ∃ base', (samplesFrom base readings).drop n = samplesFrom base' (readings.drop n) := by
  induction n generalizing base readings with
  | zero => exact ⟨base, rfl⟩
  | succ n ih =>
    cases readings with
    | nil => exact ⟨base, rfl⟩
    | cons r rs => exact ih r.used rs

/-- The increments are what all samples but the first hold. -/
theorem map_tail_samplesFrom (base : ℚ) (readings : List Reading) :
    (samplesFrom base readings).tail.map BurnSample.deltaUsed = increments readings := by
  cases readings with
  | nil => rfl
  | cons r rs =>
    rw [samplesFrom, List.tail_cons]
    induction rs generalizing r with
    | nil => rfl
    | cons r' rs ih => rw [samplesFrom, List.map_cons, ih, increments]

theorem map_time_samplesFrom (base : ℚ) (readings : List Reading) :
    (samplesFrom base readings).map BurnSample.time = readings.map Reading.time := by
  induction readings generalizing base with
  | nil => rfl
  | cons r rs ih => rw [samplesFrom, List.map_cons, ih, List.map_cons]

namespace RingBuffer

variable {T : Type}

/-- **A push keeps the last entries.** -/
theorem toArray_push (r : RingBuffer T) (item : T) :
    (r.push item).toArray = (r.toArray ++ [some item]).rtake r.cap ∧ (r.push item).cap = r.cap := by
  rw [push]
  split
  · rename_i hroom
    refine ⟨?_, rfl⟩
    have hlen : (r.toArray ++ [some item]).length ≤ r.cap := by
      rw [List.length_append, toArray, length_slice]
      exact hroom
    rw [toArray, slice_write r.buf r.head hroom, List.rtake, Nat.sub_eq_zero_of_le hlen]
    rfl
  · rename_i hfull
    refine ⟨?_, rfl⟩
    have hsize : r.size = r.cap := le_antisymm r.size_le (not_lt.mp hfull)
    have hreplace := slice_replace r.buf r.head (Nat.zero_lt_of_lt r.head_lt) (some item)
    rw [Nat.mod_eq_of_lt r.head_lt] at hreplace
    show slice (Function.update r.buf r.head (some item)) r.cap ((r.head + 1) % r.cap) r.size = _
    rw [slice_mod, toArray, hsize, hreplace, List.rtake, List.length_append, length_slice,
      List.length_singleton, Nat.add_sub_cancel_left, List.drop_append_of_le_length, List.drop_one]
    rw [length_slice]
    exact Nat.zero_lt_of_lt r.head_lt

end RingBuffer

/-- The last entries of the last entries and one more. -/
theorem rtake_rtake_concat {α : Type} (n : ℕ) (l : List α) (x : α) :
    (l.rtake n ++ [x]).rtake n = (l ++ [x]).rtake n := by
  cases n with
  | zero => rw [List.rtake_zero, List.rtake_zero]
  | succ n =>
    rw [List.rtake_concat_succ, List.rtake_concat_succ]
    congr 1
    rw [List.rtake, List.rtake, List.rtake, List.drop_drop, List.length_drop]
    congr 1
    omega

theorem rtake_map {α β : Type} (f : α → β) (n : ℕ) (l : List α) :
    (l.map f).rtake n = (l.rtake n).map f := by
  rw [List.rtake, List.rtake, List.length_map, List.map_drop]

/-- The series of readings. -/
structure Describes (cap : ℕ) (readings : List Reading) (series : TenantSeries) : Prop where
  cap_eq : series.ring.cap = cap
  toArray_eq : series.ring.toArray = ((samplesFrom 0 readings).rtake cap).map some
  lastUsed_eq : series.lastUsed = lastUsed 0 readings

open BurnAccumulator

section Series

variable {cap : ℕ} {readings : List Reading} {series : TenantSeries}

theorem describes_fresh (hcap : 0 < cap) : Describes cap [] (freshSeries cap) where
  cap_eq := max_eq_right hcap
  toArray_eq := by
    rw [samplesFrom, List.rtake_nil]
    rfl
  lastUsed_eq := rfl

theorem Describes.cleared (h : Describes cap readings series) :
    Describes cap [] ⟨series.ring.clear, 0⟩ where
  cap_eq := h.cap_eq
  toArray_eq := by
    rw [samplesFrom, List.rtake_nil]
    rfl
  lastUsed_eq := rfl

/-- **A reading more.** -/
theorem Describes.observe (h : Describes cap readings series) (now : Double) (used : ℚ) :
    Describes cap (readings ++ [⟨now, used⟩]) (TenantSeries.observe series now used) where
  cap_eq := (series.ring.toArray_push _).2.trans h.cap_eq
  toArray_eq := by
    rw [TenantSeries.observe, (series.ring.toArray_push _).1, h.cap_eq, h.toArray_eq, h.lastUsed_eq,
      samplesFrom_concat, ← rtake_map, ← rtake_map, rtake_rtake_concat, List.map_append]
    rfl
  lastUsed_eq := by
    rw [lastUsed, List.getLast?_concat]
    rfl

theorem Describes.foldl (h : Describes cap readings series) (now : Double)
    (rs : List TenantReading) :
    Describes cap (readings ++ rs.map fun r => ⟨now, r.used⟩)
      (rs.foldl (fun series r => TenantSeries.observe series now r.used) series) := by
  induction rs generalizing readings series with
  | nil =>
    rw [List.map_nil, List.append_nil]
    exact h
  | cons r rs ih =>
    have hnext := ih (h.observe now r.used)
    rw [List.append_assoc] at hnext
    exact hnext

/-- **The rate of a series is that of the readings it retains.** -/
theorem Describes.rate_eq (h : Describes cap readings series) {acc : BurnAccumulator}
    {tenant : String} (hlookup : acc.series.lookup tenant = some series) (minSpanMs : Double) :
    acc.rate tenant minSpanMs = spanRate minSpanMs (readings.rtake cap) := by
  obtain ⟨base, hbase⟩ := drop_samplesFrom (readings.length - cap) 0 readings
  have hring : series.ring.toArray = (samplesFrom base (readings.rtake cap)).map some := by
    rw [h.toArray_eq, List.rtake, length_samplesFrom, hbase]
    rfl
  rw [BurnAccumulator.rate, hlookup]
  dsimp only
  rw [hring]
  generalize readings.rtake cap = kept
  have htimes := map_time_samplesFrom base kept
  have hsum := map_tail_samplesFrom base kept
  have hlen := length_samplesFrom base kept
  generalize samplesFrom base kept = samples at htimes hsum hlen
  have hhead := congrArg List.head? htimes
  have hlast := congrArg List.getLast? htimes
  rw [List.head?_map, List.head?_map] at hhead
  rw [List.getLast?_map, List.getLast?_map] at hlast
  have hinc : ((samples.map some).tail.map fun e => (e.map BurnSample.deltaUsed).getD (.finite 0))
      = increments kept := by
    rw [← hsum, ← List.map_tail, List.map_map]
    rfl
  rw [hinc, List.length_map, hlen, spanRate, List.head?_map, List.getLast?_map]
  cases hfirst : kept.head? with
  | none =>
    rw [List.head?_eq_none_iff.mp hfirst, List.length_nil]
    rfl
  | some first =>
    have hne : kept ≠ [] := List.ne_nil_of_mem (List.mem_of_head? hfirst)
    have hkept : kept.getLast? = some (kept.getLast hne) := List.getLast?_eq_getLast_of_ne_nil hne
    generalize kept.getLast hne = last at hkept
    rw [hfirst] at hhead
    rw [hkept] at hlast
    obtain ⟨oldest, holdest, htime⟩ := Option.map_eq_some_iff.mp hhead
    obtain ⟨newest, hnewest, htime'⟩ := Option.map_eq_some_iff.mp hlast
    rw [holdest, hnewest, hkept]
    dsimp only [Option.map_some, Option.join_some]
    rw [htime, htime']
    by_cases hshort : kept.length < 2
    · rw [if_pos hshort, if_pos (.inl hshort)]
    · rw [if_neg hshort]
      by_cases hspan : (last.time.sub first.time).le (.finite 0) ∨
        (last.time.sub first.time).lt minSpanMs
      · rw [if_pos hspan, if_pos (.inr hspan)]
      · rw [if_neg hspan, if_neg (not_or.mpr ⟨hshort, hspan⟩)]

end Series

/-! ### Frames -/

/-- The accumulator after frames, the newest of which comes first. -/
structure Follows (ringSize maxKeys : ℕ) (hist : List Frame) (acc : BurnAccumulator) : Prop where
  ringSize_eq : acc.ringSize = ringSize
  maxKeys_eq : acc.maxKeys = maxKeys
  window_eq : acc.lastWindowStart = (hist.head?.map fun f => f.stats.ws).getD ⊥
  absent : ∀ tenant, acc.series.lookup tenant = none → stretch maxKeys tenant hist = []
  present : ∀ tenant series, acc.series.lookup tenant = some series →
    stretch maxKeys tenant hist ≠ [] ∧ Describes ringSize (stretch maxKeys tenant hist) series
  size_le : acc.series.size ≤ maxKeys

/-- The readings that those of a frame are added to. -/
def carried (maxKeys : ℕ) (tenant : String) (hist : List Frame) (ws : WithBot ℚ) : List Reading :=
  if hist.head?.map (fun f => f.stats.ws) = some ws then stretch maxKeys tenant hist else []

section Frames

variable {ringSize maxKeys : ℕ} {hist : List Frame} {acc : BurnAccumulator} {f : Frame}
  {tenant : String}

theorem stretch_cons (hws : f.stats.ws ≠ ⊥) (hreadings : f.readings maxKeys tenant ≠ []) :
    stretch maxKeys tenant (f :: hist)
      = carried maxKeys tenant hist f.stats.ws ++ f.readings maxKeys tenant := by
  rw [stretch, if_neg (not_or.mpr ⟨hws, hreadings⟩)]
  rfl

/-- The rings once the window has turned. -/
theorem Follows.turnWindow (hsize : 0 < ringSize) (h : Follows ringSize maxKeys hist acc)
    {ws : WithBot ℚ} (hws : ws ≠ ⊥) (tenant : String) :
    Describes ringSize (carried maxKeys tenant hist ws)
      (((acc.turnWindow ws).series.lookup tenant).getD (freshSeries ringSize)) := by
  have hother : acc.lastWindowStart ≠ ws → carried maxKeys tenant hist ws = [] := by
    intro hne
    refine if_neg fun heq => hne ?_
    rw [h.window_eq, heq]
    rfl
  rw [BurnAccumulator.turnWindow]
  rcases lt_trichotomy acc.lastWindowStart ws with hlt | heq | hgt
  · -- the window moved on: the rings start anew
    rw [if_pos hlt, hother hlt.ne]
    dsimp only
    rw [OrderedMap.lookup_mapVal]
    cases hlookup : acc.series.lookup tenant with
    | none => exact describes_fresh hsize
    | some series => exact (h.present tenant series hlookup).2.cleared
  · rw [if_neg heq.not_lt, if_neg heq.not_gt]
    have hhead : hist.head?.map (fun f => f.stats.ws) = some ws := by
      have hwindow := h.window_eq
      cases hhist : hist.head? with
      | none =>
        rw [hhist] at hwindow
        exact absurd (heq.symm.trans hwindow) hws
      | some g =>
        rw [hhist, heq] at hwindow
        exact congrArg some hwindow.symm
    rw [carried, if_pos hhead]
    cases hlookup : acc.series.lookup tenant with
    | none =>
      rw [h.absent tenant hlookup]
      exact describes_fresh hsize
    | some series => exact (h.present tenant series hlookup).2
  · -- the window moved back: they are dropped
    rw [if_neg hgt.not_gt, if_pos hgt, hother hgt.ne']
    exact describes_fresh hsize

/-- The rings after the readings of a frame. -/
theorem lookup_foldl_record (ringSize : ℕ) (now : Double) (rs : List TenantReading)
    (series : OrderedMap String TenantSeries) (tenant : String) :
    (rs.foldl (record ringSize now) series).lookup tenant
      = if rs.filter (fun r => r.key = tenant) = [] then series.lookup tenant
        else some ((rs.filter fun r => r.key = tenant).foldl
          (fun series r => TenantSeries.observe series now r.used)
          ((series.lookup tenant).getD (freshSeries ringSize))) := by
  induction rs generalizing series with
  | nil => rfl
  | cons r rs ih =>
    rw [List.foldl_cons, ih]
    by_cases hr : r.key = tenant
    · rw [List.filter_cons_of_pos (by simpa using hr), if_neg (List.cons_ne_nil _ _),
        List.foldl_cons]
      have hlookup : (record ringSize now series r).lookup tenant
          = some (TenantSeries.observe ((series.lookup tenant).getD (freshSeries ringSize)) now
              r.used) := by
        rw [record, ← hr, OrderedMap.lookup_set_self]
      rw [hlookup, Option.getD_some]
      split
      · rename_i hnil
        rw [hnil]
        rfl
      · rfl
    · have hlookup : (record ringSize now series r).lookup tenant = series.lookup tenant :=
        OrderedMap.lookup_set_of_ne _ _ hr
      rw [List.filter_cons_of_neg (by simpa using hr), hlookup]

/-- A roster that is validated beforehand makes no difference. -/
theorem selected_roster (maxKeys : ℕ) (f : Frame) :
    selected maxKeys f.stats f.roster = selected maxKeys f.stats none := by
  rw [Frame.roster]
  split <;> rfl

theorem length_selected_le (maxKeys : ℕ) (stats : CostRoomStats) :
    (selected maxKeys stats none).length ≤ maxKeys := by
  rw [selected]
  dsimp only [Option.map_none, Option.getD_none]
  split
  · exact List.length_take_le _ _
  · exact not_lt.mp ‹_›

/-- A map with keys of a list has no more entries than it. -/
theorem size_le_of_keys {series : OrderedMap String TenantSeries} {keys : List String}
    (h : ∀ tenant ∈ series.keys, tenant ∈ keys) : series.size ≤ keys.length := by
  have hsub := (List.subperm_of_subset series.nodup h).length_le
  rwa [List.length_map] at hsub

theorem turnWindow_eq (acc : BurnAccumulator) (ws : WithBot ℚ) :
    (acc.turnWindow ws).ringSize = acc.ringSize ∧ (acc.turnWindow ws).maxKeys = acc.maxKeys ∧
      (acc.turnWindow ws).lastWindowStart = ws := by
  rw [BurnAccumulator.turnWindow]
  rcases lt_trichotomy acc.lastWindowStart ws with hlt | heq | hgt
  · rw [if_pos hlt]
    exact ⟨rfl, rfl, rfl⟩
  · rw [if_neg heq.not_lt, if_neg heq.not_gt]
    exact ⟨rfl, rfl, heq⟩
  · rw [if_neg hgt.not_gt, if_pos hgt]
    exact ⟨rfl, rfl, rfl⟩

/-- A frame without a window leaves no rings. -/
theorem Follows.sample_bot (h : Follows ringSize maxKeys hist acc) (hws : f.stats.ws = ⊥) :
    Follows ringSize maxKeys (f :: hist) (acc.turnWindow ⊥) := by
  obtain ⟨hring, hmax, hwindow⟩ := turnWindow_eq acc ⊥
  have hnone : ∀ tenant, (acc.turnWindow ⊥).series.lookup tenant = none := by
    intro tenant
    rw [BurnAccumulator.turnWindow, if_neg not_lt_bot]
    split
    · rfl
    rename_i hstill
    -- there was none before
    have hbot : acc.lastWindowStart = ⊥ := not_bot_lt_iff.mp hstill
    have hstretch : stretch maxKeys tenant hist = [] := by
      cases hist with
      | nil => rfl
      | cons g older =>
        rw [stretch, if_pos]
        exact .inl (h.window_eq.symm.trans hbot)
    cases hlookup : acc.series.lookup tenant with
    | none => rfl
    | some series => exact absurd hstretch (h.present tenant series hlookup).1
  refine ⟨hring.trans h.ringSize_eq, hmax.trans h.maxKeys_eq, ?_, fun tenant _ => ?_,
    fun tenant series hlookup => ?_, ?_⟩
  · rw [hwindow]
    exact hws.symm
  · rw [stretch, if_pos (.inl hws)]
  · rw [hnone] at hlookup
    cases hlookup
  · have hsize : (acc.turnWindow ⊥).series.size ≤ ([] : List String).length := by
      refine size_le_of_keys fun tenant hmem => ?_
      obtain ⟨series, hseries⟩ := OrderedMap.exists_lookup_of_mem_keys hmem
      rw [hnone] at hseries
      cases hseries
    exact hsize.trans (Nat.zero_le maxKeys)

/-- **A frame more.** -/
theorem Follows.sample (hsize : 0 < ringSize) (h : Follows ringSize maxKeys hist acc) (f : Frame) :
    Follows ringSize maxKeys (f :: hist) (acc.sample f.stats f.time f.roster) := by
  obtain ⟨hring, hmax, hwindow⟩ := turnWindow_eq acc f.stats.ws
  rw [BurnAccumulator.sample]
  dsimp only
  by_cases hws : f.stats.ws = ⊥
  · rw [if_pos hws, hws]
    exact h.sample_bot hws
  rw [if_neg hws, hring, hmax, h.ringSize_eq, h.maxKeys_eq, selected_roster]
  have hreadings : ∀ tenant, f.readings maxKeys tenant = [] ↔
      tenant ∉ (selected maxKeys f.stats none).map TenantReading.key := by
    intro tenant
    rw [Frame.readings, List.map_eq_nil_iff, List.filter_eq_nil_iff, List.mem_map]
    simp
  have hlookup : ∀ tenant,
      (((selected maxKeys f.stats none).foldl (record ringSize f.time)
        (acc.turnWindow f.stats.ws).series).filter fun tenant _ =>
          tenant ∈ (selected maxKeys f.stats none).map TenantReading.key).lookup tenant
      = if f.readings maxKeys tenant = [] then none
        else some (((selected maxKeys f.stats none).filter fun r => r.key = tenant).foldl
          (fun series r => TenantSeries.observe series f.time r.used)
          (((acc.turnWindow f.stats.ws).series.lookup tenant).getD (freshSeries ringSize))) := by
    intro tenant
    rw [OrderedMap.lookup_filter, lookup_foldl_record]
    by_cases hnil : f.readings maxKeys tenant = []
    · have hfilter := List.map_eq_nil_iff.mp hnil
      rw [if_pos hnil, if_pos hfilter]
      exact Option.filter_eq_none_iff.mpr fun series _ => by simpa using (hreadings tenant).mp hnil
    · have hfilter := mt (fun h => List.map_eq_nil_iff.mpr h) hnil
      rw [if_neg hnil, if_neg hfilter, Option.filter_some, if_pos]
      exact decide_eq_true (not_not.mp (mt (hreadings tenant).mpr hnil))
  refine ⟨rfl, rfl, hwindow, fun tenant hnone => ?_, fun tenant series hsome => ?_, ?_⟩
  · rw [hlookup] at hnone
    split at hnone
    · rename_i hnil
      rw [stretch, if_pos (.inr hnil)]
    · cases hnone
  · rw [hlookup] at hsome
    split at hsome
    · cases hsome
    · rename_i hne
      rw [stretch_cons hws hne, ← Option.some.inj hsome]
      exact ⟨List.append_ne_nil_of_right_ne_nil _ hne,
        (h.turnWindow hsize hws tenant).foldl f.time _⟩
  · have hkept : (((selected maxKeys f.stats none).foldl (record ringSize f.time)
        (acc.turnWindow f.stats.ws).series).filter fun tenant _ =>
          tenant ∈ (selected maxKeys f.stats none).map TenantReading.key).size
        ≤ ((selected maxKeys f.stats none).map TenantReading.key).length := by
      refine size_le_of_keys fun tenant hmem => ?_
      obtain ⟨series, hseries⟩ := OrderedMap.exists_lookup_of_mem_keys hmem
      rw [OrderedMap.lookup_filter] at hseries
      exact of_decide_eq_true (Option.filter_eq_some_iff.mp hseries).2
    rw [List.length_map] at hkept
    exact hkept.trans (length_selected_le maxKeys f.stats)

end Frames

/-! ### Runs -/

theorem follows_new (ringSize maxKeys : ℚ) :
    Follows (max 2 ⌊ringSize⌋₊) (max 1 ⌊maxKeys⌋₊) [] (.new ringSize maxKeys) where
  ringSize_eq := rfl
  maxKeys_eq := rfl
  window_eq := rfl
  absent _ _ := rfl
  present tenant series h := by
    rw [BurnAccumulator.new, OrderedMap.lookup_empty] at h
    cases h
  size_le := Nat.zero_le _

/-- **What the rings hold after any frames.** -/
theorem follows_run (ringSize maxKeys : ℚ) (frames : List Frame) :
    Follows (max 2 ⌊ringSize⌋₊) (max 1 ⌊maxKeys⌋₊) frames.reverse
      (run ringSize maxKeys frames) := by
  induction frames using List.reverseRecOn with
  | nil => exact follows_new ringSize maxKeys
  | append_singleton frames f ih =>
    rw [List.reverse_append, run, List.foldl_append]
    exact ih.sample (Nat.lt_of_lt_of_le two_pos (le_max_left _ _)) f

/-- A frame of a window in which the tenant has a reading. -/
def Frame.Counts (maxKeys : ℕ) (tenant : String) (ws : WithBot ℚ) (f : Frame) : Prop :=
  f.stats.ws ≠ ⊥ ∧ f.stats.ws = ws ∧ f.readings maxKeys tenant ≠ []

instance (maxKeys : ℕ) (tenant : String) (ws : WithBot ℚ) :
    DecidablePred (Frame.Counts maxKeys tenant ws) := fun f => by
  haveI : Decidable (f.readings maxKeys tenant ≠ []) :=
    decidable_of_iff (¬ (f.readings maxKeys tenant).isEmpty) (by rw [List.isEmpty_iff])
  unfold Frame.Counts
  infer_instance

/-- The last frames, back to where the window was another or the tenant had no reading. -/
def contiguous (maxKeys : ℕ) (tenant : String) (frames : List Frame) : List Frame :=
  match frames.getLast? with
  | none => []
  | some newest => frames.rtakeWhile fun f => f.Counts maxKeys tenant newest.stats.ws

/-- The readings that a ring retains. -/
def retained (ringSize maxKeys : ℕ) (tenant : String) (frames : List Frame) : List Reading :=
  ((contiguous maxKeys tenant frames).flatMap fun f => f.readings maxKeys tenant).rtake ringSize

theorem carried_eq (maxKeys : ℕ) (tenant : String) (hist : List Frame) (ws : WithBot ℚ) :
    carried maxKeys tenant hist ws
      = (hist.takeWhile fun f => f.Counts maxKeys tenant ws).reverse.flatMap fun f =>
          f.readings maxKeys tenant := by
  induction hist with
  | nil => rfl
  | cons g older ih =>
    rw [carried, List.head?_cons, Option.map_some]
    by_cases hcounts : g.Counts maxKeys tenant ws
    · obtain ⟨hbot, hws, hreadings⟩ := hcounts
      have hpos : decide (g.Counts maxKeys tenant ws) = true :=
        decide_eq_true ⟨hbot, hws, hreadings⟩
      rw [if_pos (congrArg some hws), stretch_cons hbot hreadings, hws, ih, List.takeWhile_cons,
        if_pos hpos, List.reverse_cons, List.flatMap_append, List.flatMap_singleton]
    · rw [List.takeWhile_cons_of_neg (by simpa using hcounts)]
      split
      · rename_i hws
        rw [stretch, if_pos]
        · rfl
        · by_contra hcon
          obtain ⟨hbot, hreadings⟩ := not_or.mp hcon
          exact hcounts ⟨hbot, Option.some.inj hws, hreadings⟩
      · rfl

/-- **The frames that the readings of a ring come from.** -/
theorem stretch_reverse (maxKeys : ℕ) (tenant : String) (frames : List Frame) :
    stretch maxKeys tenant frames.reverse
      = (contiguous maxKeys tenant frames).flatMap fun f => f.readings maxKeys tenant := by
  have hcarried := carried_eq maxKeys tenant frames.reverse
  rw [contiguous]
  cases hlast : frames.getLast? with
  | none =>
    rw [List.getLast?_eq_none_iff.mp hlast]
    rfl
  | some newest =>
    have hwindow := hcarried newest.stats.ws
    rw [carried, if_pos (by rw [List.head?_reverse, hlast]; rfl)] at hwindow
    exact hwindow

/-! ### When a rate is finite -/

theorem amount_increments (readings : List Reading) :
    ∀ x ∈ increments readings, x.Amount := by
  induction readings with
  | nil => exact List.forall_mem_nil _
  | cons r rs ih =>
    cases rs with
    | nil => exact List.forall_mem_nil _
    | cons r' rs => exact List.forall_mem_cons.mpr ⟨Double.amount_maxZero_sub _ _, ih⟩

/-- A time span that is a number and above zero makes seconds. -/
theorem amount_seconds {span : Double} (hnum : span ≠ .nan) (hpos : ¬ span.le (.finite 0)) :
    (span.div (.finite 1000)).Amount := by
  cases span with
  | nan => exact absurd rfl hnum
  | negInfinity => exact absurd rfl hpos
  | infinity => trivial
  | finite s =>
    have hs : 0 < s := not_le.mp fun hle => hpos (decide_eq_true hle)
    exact Double.amount_ofRat (div_nonneg hs.le (by norm_num))

/-- Readings whose rate is reported are taken at times that differ by a number, and their increments
stay below what the seconds between them allow. -/
def InRange (minSpanMs : Double) (readings : List Reading) : Prop :=
  ∀ first last, readings.head? = some first → readings.getLast? = some last →
    2 ≤ readings.length → ¬ (last.time.sub first.time).le (.finite 0) →
      ¬ (last.time.sub first.time).lt minSpanMs →
    last.time.sub first.time ≠ .nan ∧
      ∃ burned, Double.sum (increments readings) = .finite burned ∧
        ∀ seconds, (last.time.sub first.time).div (.finite 1000) = .finite seconds →
          burned < Double.overflow * seconds

/-- When increments over a time span above zero are finite. -/
theorem quotient_finite_iff {span inc : Double} (hinc : inc.Amount) (hpos : ¬ span.le (.finite 0)) :
    (∃ x, 0 ≤ x ∧ inc.div (span.div (.finite 1000)) = .finite x) ↔
      span ≠ .nan ∧ ∃ burned, inc = .finite burned ∧
        ∀ seconds, span.div (.finite 1000) = .finite seconds →
          burned < Double.overflow * seconds := by
  by_cases hnum : span = .nan
  · constructor
    · rintro ⟨x, _, hx⟩
      rw [hnum] at hx
      cases inc <;> cases hx
    · rintro ⟨hnan, _⟩
      exact absurd hnum hnan
  · rw [Double.div_finite_iff hinc (amount_seconds hnum hpos)]
    exact (and_iff_right hnum).symm

theorem spanRate_finite_iff (minSpanMs : Double) (readings : List Reading) :
    (∀ rate, spanRate minSpanMs readings = some rate → ∃ x, 0 ≤ x ∧ rate = .finite x) ↔
      InRange minSpanMs readings := by
  have hsum : (Double.sum (increments readings)).Amount :=
    Double.amount_sum (amount_increments readings)
  constructor
  · intro hrate first last hfirst hlast hlen hpos hspan
    refine (quotient_finite_iff hsum hpos).mp (hrate _ ?_)
    rw [spanRate, hfirst, hlast]
    exact if_neg (not_or.mpr ⟨not_lt.mpr hlen, not_or.mpr ⟨hpos, hspan⟩⟩)
  · intro hrange rate hrate
    rw [spanRate] at hrate
    split at hrate
    · rename_i first last hfirst hlast
      dsimp only at hrate
      split at hrate
      · cases hrate
      · rename_i hreported
        obtain ⟨hlen, hreported⟩ := not_or.mp hreported
        obtain ⟨hpos, hspan⟩ := not_or.mp hreported
        rw [← Option.some.inj hrate]
        exact (quotient_finite_iff hsum hpos).mpr
          (hrange first last hfirst hlast (not_lt.mp hlen) hpos hspan)
    · cases hrate

/-! ### The rate after any frames -/

/-- The rate is that of the readings that are retained. -/
theorem rate_run (ringSize maxKeys : ℚ) (frames : List Frame) (tenant : String)
    (minSpanMs : Double) :
    (run ringSize maxKeys frames).rate tenant minSpanMs
      = spanRate minSpanMs
          (retained (max 2 ⌊ringSize⌋₊) (max 1 ⌊maxKeys⌋₊) tenant frames) := by
  have hfollows := follows_run ringSize maxKeys frames
  rw [retained, ← stretch_reverse]
  cases hlookup : (run ringSize maxKeys frames).series.lookup tenant with
  | none =>
    rw [BurnAccumulator.rate, hlookup, hfollows.absent tenant hlookup, List.rtake_nil]
    rfl
  | some series => exact (hfollows.present tenant series hlookup).2.rate_eq hlookup minSpanMs

/-- **The rate after any frames**: at most as many tenants as there may be have a ring, the rate is
that of the readings retained of the frames that belong together, and it is nothing or a finite
number above or at zero exactly as long as these readings are in range. -/
theorem rate_is_finite_iff (ringSize maxKeys : ℚ) (frames : List Frame) (tenant : String)
    (minSpanMs : Double) :
    (run ringSize maxKeys frames).series.size ≤ max 1 ⌊maxKeys⌋₊ ∧
    (run ringSize maxKeys frames).rate tenant minSpanMs
      = spanRate minSpanMs
          (retained (max 2 ⌊ringSize⌋₊) (max 1 ⌊maxKeys⌋₊) tenant frames) ∧
    ((∀ rate, (run ringSize maxKeys frames).rate tenant minSpanMs = some rate →
        ∃ x, 0 ≤ x ∧ rate = .finite x) ↔
      InRange minSpanMs (retained (max 2 ⌊ringSize⌋₊) (max 1 ⌊maxKeys⌋₊) tenant frames)) := by
  refine ⟨(follows_run ringSize maxKeys frames).size_le, rate_run .., ?_⟩
  rw [rate_run]
  exact spanRate_finite_iff ..

/-- A frame of one tenant. -/
def frameOf (time : Double) (used : ℚ) : Frame :=
  ⟨⟨.finite 0, [⟨some "a", .finite 1, .finite used⟩]⟩, time, true⟩

/-- A tenant that is reset in between makes the sum of its increments infinite, and a clock that is
no number the rate. -/
theorem rate_is_not_finite :
    (run 16 64 [frameOf (.finite 0) 0, frameOf (.finite 1000) (2 ^ 1023), frameOf (.finite 2000) 0,
      frameOf (.finite 3000) (2 ^ 1023)]).rate "a" (.finite 1000) = some .infinity ∧
    (run 16 64 [frameOf (.finite 0) 0, frameOf .nan 1]).rate "a" (.finite 1000) = some .nan := by
  constructor
  · decide +kernel
  · decide +kernel

end ThrottleKit.Monitor
