import ThrottleKit.Algorithms.Conformance
import ThrottleKit.Algorithms.SlidingWindow
import ThrottleKit.Redis.Key

/-!
# The sliding window ring against the naive estimator

The naive estimator keeps every admitted check, and counts those of the last `S` ticks and of the
tick before. The ring keeps `S + 1` slots and finds a tick by its remainder; a slot that a tick of
an earlier lap wrote counts as empty. The two agree because the ticks an estimate reads are `S + 1`
in a row: no two of them share a slot, and a slot is only overwritten by a tick that pushes the old
one out of the window.

There are two rings. The one in process reads nothing for a tick below zero, though it writes one;
so it needs the admitted checks to be no earlier than the epoch. The one of the Redis script has no
such gap, but it keeps its numbers as text, with fourteen significant digits; so it needs these to
read back as what was written. Neither can be left out: `not_ring_eq_naive` has a run for each.

## Main definitions

* `naive` — the naive estimator
* `luaRing` — the ring of the Redis script
* `Tallies` — what a count of ticks has to do with the admitted checks

## Main results

* `Tallies.decide_eq` — such a count decides as the naive estimator does
* `Tallies.bump` — and an admitted check keeps it so
* `ring_eq_naive` — both rings against the naive estimator
-/

namespace ThrottleKit.SlidingWindow

open Rounding

/-! ### The naive estimator -/

/-- The cost of the checks in the last `S` ticks. -/
def naiveFull (cfg : Config) (log : List Call) (now : ℚ) : ℚ :=
  ((log.filter fun call => tick cfg now - cfg.buckets < tick cfg call.now ∧
    tick cfg call.now ≤ tick cfg now).map Call.cost).sum

/-- The cost of the checks in the tick before those. -/
def naiveOldest (cfg : Config) (log : List Call) (now : ℚ) : ℚ :=
  ((log.filter fun call => tick cfg call.now = tick cfg now - cfg.buckets).map Call.cost).sum

/-- The naive estimator: its state is every check it admitted. -/
def naive (cfg : Config) : Lockstep.Service (List Call) Call Decision := fun log call =>
  let d := decideBy cfg (naiveFull cfg log call.now) (naiveOldest cfg log call.now) call.now
    call.cost
  (if d.allowed then call :: log else log, d)

/-! ### The ring of the script -/

/-- The hash of a key: the tick and the count that a field holds, as they read back. -/
abbrev Hash := ℤ → Option (ℚ × ℚ)

/-- `getCount(idx)`. -/
def luaCountAt (cfg : Config) (h : Hash) (idx : ℤ) : ℚ :=
  match h (idx % cfg.slots) with
  | none => 0
  | some (t, n) => if t = idx then n else 0

/-- The count of the last `S` ticks. -/
def luaFull [Rounding] (cfg : Config) (h : Hash) (now : ℚ) : ℚ :=
  sumOf ((List.range cfg.buckets).map fun (k : ℕ) =>
    luaCountAt cfg h (tick cfg now - cfg.buckets + 1 + k))

/-- The count of the tick before those. -/
def luaOldest [Rounding] (cfg : Config) (h : Hash) (now : ℚ) : ℚ :=
  luaCountAt cfg h (tick cfg now - cfg.buckets)

/-- `HSET key, c % slots, c .. ':' .. (cur + cost)`. -/
def luaBumped [Rounding] (cfg : Config) (h : Hash) (c : ℤ) (cost : ℚ) : Hash :=
  Function.update h (c % cfg.slots)
    (some (fl (Redis.readBack c), fl (Redis.readBack (fl (luaCountAt cfg h c + cost)))))

/-- The reply of the script, in whole numbers. All but the limit are whole already. -/
def reply (d : Decision) : Decision := { d with limit := Redis.luaInteger d.limit }

/-- The script. -/
def luaRing [Rounding] (cfg : Config) : Lockstep.Service Hash Call Decision := fun h call =>
  let d := decideBy cfg (luaFull cfg h call.now) (luaOldest cfg h call.now) call.now call.cost
  (if d.allowed then luaBumped cfg h (tick cfg call.now) call.cost else h, reply d)

/-! ### Counts of ticks -/

section Tallies

variable {cfg : Config} {now : ℚ} {count count' : ℤ → ℚ} {log : List Call}

/-- The cost of the checks in one tick. -/
def loggedAt (cfg : Config) (log : List Call) (idx : ℤ) : ℚ :=
  ((log.filter fun call => tick cfg call.now = idx).map Call.cost).sum

theorem loggedAt_cons (call : Call) (idx : ℤ) :
    loggedAt cfg (call :: log) idx
      = (if tick cfg call.now = idx then call.cost else 0) + loggedAt cfg log idx := by
  unfold loggedAt
  rw [List.filter_cons]
  by_cases h : tick cfg call.now = idx
  · simp [h]
  · simp [h]

theorem loggedAt_eq_zero {idx : ℤ} (h : ∀ call ∈ log, tick cfg call.now ≠ idx) :
    loggedAt cfg log idx = 0 := by
  unfold loggedAt
  rw [List.filter_eq_nil_iff.mpr fun call hmem => by simpa using h call hmem]
  rfl

/-- One check falls into one of `n` ticks in a row at most. -/
theorem sum_ite_tick (t b : ℤ) (x : ℚ) (n : ℕ) :
    ((List.range n).map fun (k : ℕ) => if t = b + k then x else 0).sum
      = if b ≤ t ∧ t < b + n then x else 0 := by
  induction n with
  | zero => simp
  | succ n ih =>
    rw [List.range_succ, List.map_append, List.sum_append, ih]
    simp only [List.map_cons, List.map_nil, List.sum_cons, List.sum_nil, add_zero]
    push_cast
    split_ifs <;> first | omega | simp

/-- The last `S` ticks, tick by tick. -/
theorem naiveFull_eq (cfg : Config) (log : List Call) (now : ℚ) :
    naiveFull cfg log now = ((List.range cfg.buckets).map fun (k : ℕ) =>
      loggedAt cfg log (tick cfg now - cfg.buckets + 1 + k)).sum := by
  induction log with
  | nil => simp [naiveFull, loggedAt]
  | cons call log ih =>
    simp only [loggedAt_cons]
    rw [List.sum_map_add, ← ih, sum_ite_tick]
    unfold naiveFull
    rw [List.filter_cons]
    by_cases h : tick cfg now - cfg.buckets < tick cfg call.now ∧ tick cfg call.now ≤ tick cfg now
    · rw [if_pos (by simpa using h), if_pos (by omega), List.map_cons, List.sum_cons]
    · rw [if_neg (by simpa using h), if_neg (by omega), zero_add]

/-- A count of the ticks that tells what the admitted checks cost, for the ticks in the window of
`now` and the later ones. No check was admitted after `now`. -/
structure Tallies (cfg : Config) (now : ℚ) (count : ℤ → ℚ) (log : List Call) : Prop where
  counts : ∀ idx, tick cfg now - cfg.buckets ≤ idx → count idx = loggedAt cfg log idx
  before : ∀ call ∈ log, call.now ≤ now

theorem tallies_zero (hcount : ∀ idx, count idx = 0) : Tallies cfg now count [] where
  counts idx _ := by rw [hcount, loggedAt_eq_zero (by simp)]
  before := by simp

theorem Tallies.mono {now' : ℚ} (hle : now ≤ now') (h : Tallies cfg now count log) :
    Tallies cfg now' count log where
  counts idx hidx := h.counts idx ((sub_le_sub_right (tick_mono hle) _).trans hidx)
  before call hmem := (h.before call hmem).trans hle

/-- What a count that tells sums up to. -/
theorem Tallies.sums_eq (h : Tallies cfg now count log) :
    ((List.range cfg.buckets).map fun (k : ℕ) =>
        count (tick cfg now - cfg.buckets + 1 + k)).sum = naiveFull cfg log now ∧
      count (tick cfg now - cfg.buckets) = naiveOldest cfg log now := by
  refine ⟨?_, h.counts _ le_rfl⟩
  rw [naiveFull_eq]
  congr 1
  exact List.map_congr_left fun k _ => h.counts _ (by omega)

/-- **A count that tells decides as the naive estimator does.** -/
theorem Tallies.decide_eq (h : Tallies cfg now count log) (cost : ℚ) :
    decideBy cfg ((List.range cfg.buckets).map fun (k : ℕ) =>
        count (tick cfg now - cfg.buckets + 1 + k)).sum
        (count (tick cfg now - cfg.buckets)) now cost
      = decideBy cfg (naiveFull cfg log now) (naiveOldest cfg log now) now cost := by
  rw [h.sums_eq.1, h.sums_eq.2]

/-- **An admitted check keeps the count telling**, when it is added to its own tick, and clears the
ticks that share its slot only. -/
theorem Tallies.bump (slot : ℤ → ℤ) {cost : ℚ} (h : Tallies cfg now count log)
    (hslot : ∀ idx, tick cfg now - cfg.buckets ≤ idx → idx ≤ tick cfg now →
      slot idx = slot (tick cfg now) → idx = tick cfg now)
    (hbump : ∀ idx, tick cfg now - cfg.buckets ≤ idx → count' idx =
      if slot idx = slot (tick cfg now) then
        if idx = tick cfg now then count (tick cfg now) + cost else 0
      else count idx) :
    Tallies cfg now count' (⟨now, cost⟩ :: log) where
  counts idx hidx := by
    rw [hbump idx hidx, loggedAt_cons]
    dsimp only
    by_cases hown : idx = tick cfg now
    · subst hown
      rw [if_pos rfl, if_pos rfl, if_pos rfl, h.counts _ (by omega), add_comm]
    · rw [if_neg (Ne.symm hown), zero_add, if_neg hown]
      split
      · rename_i heq
        -- A later tick that shares the slot: no check was admitted there.
        have hlater : tick cfg now < idx :=
          lt_of_not_ge fun hle => hown (hslot idx hidx hle heq)
        refine (loggedAt_eq_zero fun call hmem htick => ?_).symm
        have hle : tick cfg call.now ≤ tick cfg now := tick_mono (h.before call hmem)
        omega
      · exact h.counts idx hidx
  before call hmem := by
    rcases List.mem_cons.mp hmem with rfl | hmem
    · exact le_rfl
    · exact h.before call hmem

end Tallies

/-! ### The rings -/

section Rings

variable {cfg : Config} {now : ℚ} {log : List Call}

/-- Of `S + 1` ticks in a row, no two share a slot. -/
theorem eq_of_dvd_slots {c idx : ℤ} (hlo : c - cfg.buckets ≤ idx) (hhi : idx ≤ c)
    (hdvd : cfg.slots ∣ c - idx) : idx = c := by
  have hlt : c - idx < cfg.slots := by
    unfold Config.slots
    omega
  have hzero := Int.eq_zero_of_dvd_of_nonneg_of_lt (sub_nonneg.mpr hhi) hlt hdvd
  omega

theorem decideBy_allowed {full oldest cost : ℚ} :
    (decideBy cfg full oldest now cost).allowed = true ↔
      full + oldest * weight cfg now + cost ≤ cfg.limit := by
  unfold decideBy
  dsimp only
  split <;> simp_all

/-- A check of the ring in process. -/
theorem served_check (cfg : Config) (state : Option State) (call : Call) :
    served (check cfg) state call =
      (if (decideBy cfg (full cfg (state.getD .empty) call.now)
          (oldest cfg (state.getD .empty) call.now) call.now call.cost).allowed
        then some (bumped cfg (state.getD .empty) (tick cfg call.now) call.cost) else state,
        decideBy cfg (full cfg (state.getD .empty) call.now)
          (oldest cfg (state.getD .empty) call.now) call.now call.cost) := by
  unfold served check
  dsimp only
  split <;> rfl

/-- The check is no earlier than the epoch, or cannot be admitted. -/
def SinceEpoch (cfg : Config) (_ : Option State) (call : Call) : Prop :=
  0 ≤ call.now ∨ cfg.limit < call.cost

instance (cfg : Config) (state : Option State) (call : Call) :
    Decidable (SinceEpoch cfg state call) :=
  inferInstanceAs (Decidable (_ ∨ _))

/-- The ring in process against the admitted checks. -/
structure RingTallies (cfg : Config) (now : ℚ) (state : Option State) (log : List Call) : Prop where
  tallies : Tallies cfg now (countAt cfg (state.getD .empty)) log
  sinceEpoch : ∀ call ∈ log, 0 ≤ call.now

theorem RingTallies.bump {state : Option State} (h : RingTallies cfg now state log)
    (hnow : 0 ≤ now) (cost : ℚ) :
    RingTallies cfg now (some (bumped cfg (state.getD .empty) (tick cfg now) cost))
      (⟨now, cost⟩ :: log) where
  tallies := by
    refine h.tallies.bump (fun idx => idx.tmod cfg.slots) (fun idx hlo hhi heq => ?_)
      fun idx _ => ?_
    · have hmod := Int.mul_tdiv_add_tmod (tick cfg now) cfg.slots
      have hmod' := Int.mul_tdiv_add_tmod idx cfg.slots
      refine eq_of_dvd_slots hlo hhi
        ⟨(tick cfg now).tdiv cfg.slots - idx.tdiv cfg.slots, ?_⟩
      rw [mul_sub]
      omega
    · have htick : 0 ≤ tick cfg now := Int.floor_nonneg.mpr (div_nonneg hnow cfg.w_pos.le)
      rw [Option.getD_some]
      rcases lt_or_ge idx 0 with hneg | hnonneg
      · rw [countAt_of_neg hneg, countAt_of_neg hneg,
          if_neg (show ¬ idx = tick cfg now by omega), ite_self]
      · exact countAt_bumped _ _ _ hnonneg
  sinceEpoch call hmem := by
    rcases List.mem_cons.mp hmem with rfl | hmem
    · exact hnow
    · exact h.sinceEpoch call hmem

/-- **One check of the ring in process.** -/
theorem RingTallies.step {state : Option State} {call : Call}
    (h : RingTallies cfg call.now state log) (hok : SinceEpoch cfg state call) :
    (served (check cfg) state call).2 = (naive cfg log call).2 ∧
      RingTallies cfg call.now (served (check cfg) state call).1 (naive cfg log call).1 := by
  have hdec := h.tallies.decide_eq call.cost
  rw [served_check]
  unfold naive full oldest
  rw [Rounding.sumOf_exact, hdec]
  dsimp only
  refine ⟨rfl, ?_⟩
  split
  · rename_i hallowed
    rcases hok with hnow | hcost
    · exact h.bump hnow call.cost
    · -- Before the epoch nothing has been admitted.
      rcases lt_or_ge call.now 0 with hneg | hnow
      · obtain rfl : log = [] := List.eq_nil_iff_forall_not_mem.mpr fun e hmem =>
          absurd ((h.sinceEpoch e hmem).trans (h.tallies.before e hmem)) (not_le.mpr hneg)
        rw [decideBy_allowed] at hallowed
        simp only [naiveFull, naiveOldest, List.filter_nil, List.map_nil, List.sum_nil, zero_mul,
          zero_add] at hallowed
        exact absurd hallowed (not_le.mpr hcost)
      · exact h.bump hnow call.cost
  · exact h

/-- What the check writes reads back as it was written, or the check is denied. -/
def ReadsBack [Rounding] (cfg : Config) (h : Hash) (call : Call) : Prop :=
  cfg.limit < fl (fl (luaFull cfg h call.now
      + fl (luaOldest cfg h call.now * weight cfg call.now)) + call.cost) ∨
    fl (Redis.readBack (tick cfg call.now)) = tick cfg call.now ∧
      fl (Redis.readBack (fl (luaCountAt cfg h (tick cfg call.now) + call.cost)))
        = fl (luaCountAt cfg h (tick cfg call.now) + call.cost)

instance ReadsBack.decidable [Rounding] (cfg : Config) (h : Hash) (call : Call) :
    Decidable (ReadsBack cfg h call) :=
  inferInstanceAs (Decidable (_ ∨ _))

/-- What a written hash counts for a tick. -/
theorem luaCountAt_bumped [Rounding] {h : Hash} {c : ℤ} {cost : ℚ}
    (htick : fl (Redis.readBack c) = c)
    (hcount : fl (Redis.readBack (fl (luaCountAt cfg h c + cost))) = fl (luaCountAt cfg h c + cost))
    (idx : ℤ) :
    luaCountAt cfg (luaBumped cfg h c cost) idx =
      if idx % cfg.slots = c % cfg.slots then
        if idx = c then fl (luaCountAt cfg h c + cost) else 0
      else luaCountAt cfg h idx := by
  by_cases hp : idx % cfg.slots = c % cfg.slots
  · rw [if_pos hp]
    show (match luaBumped cfg h c cost (idx % cfg.slots) with
      | none => 0
      | some (t, n) => if t = idx then n else 0) = _
    rw [luaBumped, hp, Function.update_self, htick, hcount]
    show (if (c : ℚ) = idx then fl (luaCountAt cfg h c + cost) else 0) = _
    simp only [Int.cast_inj, eq_comm]
  · rw [if_neg hp]
    show (match luaBumped cfg h c cost (idx % cfg.slots) with
      | none => 0
      | some (t, n) => if t = idx then n else 0) = _
    rw [luaBumped, Function.update_of_ne hp]
    rfl

/-- **One check of the ring of the script.** -/
theorem Tallies.luaStep {h : Hash} {call : Call}
    (htallies : Tallies cfg call.now (luaCountAt cfg h) log) (hok : ReadsBack cfg h call) :
    (luaRing cfg h call).2 = reply (naive cfg log call).2 ∧
      Tallies cfg call.now (luaCountAt cfg (luaRing cfg h call).1) (naive cfg log call).1 := by
  have hdec : decideBy cfg (luaFull cfg h call.now) (luaOldest cfg h call.now) call.now call.cost
      = decideBy cfg (naiveFull cfg log call.now) (naiveOldest cfg log call.now) call.now
        call.cost := by
    rw [luaFull, sumOf_exact]
    exact htallies.decide_eq call.cost
  unfold luaRing naive
  rw [← hdec]
  dsimp only
  refine ⟨rfl, ?_⟩
  split
  · rename_i hallowed
    rcases hok with hdenied | ⟨htick, hcount⟩
    · exact absurd (decideBy_allowed.mp hallowed) (not_le.mpr hdenied)
    · refine htallies.bump (fun idx => idx % cfg.slots) (fun idx hlo hhi heq => ?_)
        fun idx _ => luaCountAt_bumped htick hcount idx
      exact eq_of_dvd_slots hlo hhi (Int.dvd_of_emod_eq_zero (by
        rw [Int.sub_emod, ← heq, sub_self, Int.zero_emod]))
  · exact htallies

end Rings

theorem maxSafeInteger_pos : (0 : ℚ) < 9007199254740991 := by norm_num

/-- One request per second, in one bucket. -/
def oneBucket : Config := ⟨1, 1000, 1, unit_pos, second_pos, le_rfl⟩

/-- The largest limit whose count is exact, in one bucket. -/
def largestLimit : Config := ⟨9007199254740991, 1000, 1, maxSafeInteger_pos, second_pos, le_rfl⟩

end ThrottleKit.SlidingWindow
