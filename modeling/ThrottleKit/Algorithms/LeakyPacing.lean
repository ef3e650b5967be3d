import Mathlib
import ThrottleKit.Algorithms.LeakyBucket
import ThrottleKit.Algorithms.ScriptForms

/-!
# The pace of the leaky bucket

A reservation that is accepted departs at the instant the queue is next empty, and takes the queue
for the time its cost is worth. There are three forms of it: the transform an asynchronous store is
given, the one `reserveSync` reuses from call to call, and the Lua script.

What a caller is told is the wait rounded up to a whole millisecond. The bounds on the departures
hold of the departures the queue keeps; what is told is later by less than a millisecond, and may
thereby be longer than a queue of a fractional length.

## Main definitions

* `syncTransform`, `luaScript` — the other two forms
* `departures` — the departures of the reservations that are accepted
* `Paced` — their order, their spacing and their waits

## Main results

* `leakyBucket_paces` — departures are paced, and the three forms answer alike
-/

namespace ThrottleKit.LeakyBucket

open Lockstep Redis Rounding

/-! ### The other two forms -/

/-- The variables that `reserveSync` sets and its transform reads. -/
structure Slots where
  syncNow : ℚ
  syncCost : ℚ

/-- The slots before any call. -/
def Slots.start : Slots := ⟨0, 1⟩

/-- `syncTransform(state)`. -/
def syncTransform [Rounding] (cfg : Config) (slots : Slots) (state : Option ℚ) :
    ApplyOutcome ℚ Reservation :=
  let now := slots.syncNow
  let inc := fl (cfg.T * slots.syncCost)
  let stored := state.getD now
  let departure := if now < stored then stored else now
  let delay := fl (departure - now)
  if cfg.maxQueueMs < delay then
    { state := state
      result := ⟨false, ⌈fl (delay - cfg.maxQueueMs)⌉⟩
      ttlMs := cfg.maxQueueMs
      persist := false }
  else
    let newDeparture := fl (departure + inc)
    { state := some newDeparture
      result := ⟨true, ⌈delay⌉⟩
      ttlMs := max 1 ⌈fl (newDeparture - now)⌉
      persist := true }

/-- `reserveSync(key, cost)` on the slots and the state of the key. -/
def reserveSync (cfg : Config) : Service (Slots × Option ℚ) Call Reservation := fun s call =>
  let slots : Slots := ⟨call.now, call.cost⟩
  let out := syncTransform cfg slots s.2
  ((slots, if out.persist then out.state else s.2), out.result)

/-- `LEAKY_LUA`: what it writes to the key, how long that is to live, and the reply. -/
def luaScript [Rounding] (cfg : Config) (stored : Option ℚ) (now cost : ℚ) :
    ApplyOutcome ℚ Reservation :=
  let T := fl (1000 / cfg.ratePerSec)
  let inc := fl (T * cost)
  let departure := stored.getD now
  let departure := if departure < now then now else departure
  let delay := fl (departure - now)
  if cfg.maxQueueMs < delay then
    { state := stored
      result := ⟨false, ⌈fl (delay - cfg.maxQueueMs)⌉⟩
      ttlMs := cfg.maxQueueMs
      persist := false }
  else
    let newDeparture := fl (departure + inc)
    let px : ℚ := ⌈fl (newDeparture - now)⌉
    { state := some newDeparture
      result := ⟨true, ⌈delay⌉⟩
      ttlMs := if px < 1 then 1 else px
      persist := true }

/-- The integers of a reply, where 64 bits hold them. -/
def reply (r : Reservation) : Option Reservation := if Fits r.delayMs then some r else none

/-- The calls of the script on the record of the key. -/
def scripted (cfg : Config) : Service (Option (Key ℚ)) Timed (Option Reservation) := fun key t =>
  let out := luaScript cfg (read key t.server) t.eval.now t.call.cost
  (if out.persist then out.state.map fun v => writePx t.server v ⌊out.ttlMs⌋ else key,
    reply out.result)

theorem syncTransform_eq [Rounding] (cfg : Config) (state : Option ℚ) (now cost : ℚ) :
    syncTransform cfg ⟨now, cost⟩ state = reserve cfg state now cost := by
  rw [syncTransform, reserve]
  dsimp only
  rw [← max_def_lt now, max_comm]

theorem luaScript_eq [Rounding] (cfg : Config) (state : Option ℚ) (now cost : ℚ) :
    luaScript cfg state now cost = reserve cfg state now cost := by
  rw [luaScript, reserve]
  dsimp only
  rw [← max_def_lt, show ∀ px : ℚ, (if px < 1 then 1 else px) = max px 1 from
    fun px => (max_def_lt px 1).symm, max_comm _ (1 : ℚ)]
  rfl

/-! ### Departures -/

/-- An accepted reservation, and when it departs. -/
structure Departure where
  call : Call
  at_ : ℚ

/-- The time from the call to the departure. -/
def Departure.wait (d : Departure) : ℚ := d.at_ - d.call.now

/-- What the caller is told. -/
def Departure.told (d : Departure) : Reservation := ⟨true, ⌈d.wait⌉⟩

/-- When a reservation at `now` is to depart. -/
def departure (state : Option ℚ) (now : ℚ) : ℚ := max (state.getD now) now

/-- The departures of the reservations that are accepted. -/
def departures (cfg : Config) : Option ℚ → List Call → List Departure
  | _, [] => []
  | state, call :: calls =>
    let rest := departures cfg (served (reserve cfg) state call).1 calls
    if (reserve cfg state call.now call.cost).result.accepted then
      ⟨call, departure state call.now⟩ :: rest
    else rest

variable {cfg : Config} {state : Option ℚ} {call : Call} {calls : List Call}

theorem le_departure (state : Option ℚ) (now : ℚ) : now ≤ departure state now := le_max_right _ _

theorem reserve_of_lt {now : ℚ} (h : cfg.maxQueueMs < departure state now - now) (cost : ℚ) :
    reserve cfg state now cost =
      { state := state
        result := ⟨false, ⌈departure state now - now - cfg.maxQueueMs⌉⟩
        ttlMs := cfg.maxQueueMs
        persist := false } := by
  rw [reserve]
  exact if_pos h

theorem reserve_of_le {now : ℚ} (h : departure state now - now ≤ cfg.maxQueueMs) (cost : ℚ) :
    reserve cfg state now cost =
      { state := some (departure state now + cfg.T * cost)
        result := ⟨true, ⌈departure state now - now⌉⟩
        ttlMs := max 1 ⌈departure state now + cfg.T * cost - now⌉
        persist := true } := by
  rw [reserve]
  exact if_neg (not_lt.mpr h)

theorem departures_of_lt (h : cfg.maxQueueMs < departure state call.now - call.now) :
    departures cfg state (call :: calls) = departures cfg state calls := by
  rw [departures, served, reserve_of_lt h]
  rfl

theorem departures_of_le (h : departure state call.now - call.now ≤ cfg.maxQueueMs) :
    departures cfg state (call :: calls) = ⟨call, departure state call.now⟩ ::
      departures cfg (some (departure state call.now + cfg.T * call.cost)) calls := by
  rw [departures, served, reserve_of_le h]
  rfl

/-- No departure is before the instant at which the queue is empty. -/
theorem le_of_mem_departures (hcost : ∀ c ∈ calls, 0 ≤ cfg.T * c.cost) :
    ∀ {state s}, state = some s → ∀ d ∈ departures cfg state calls, s ≤ d.at_ := by
  induction calls with
  | nil => exact fun _ d hd => absurd hd List.not_mem_nil
  | cons call calls ih =>
    intro state s hs d hd
    have hrest : ∀ c ∈ calls, 0 ≤ cfg.T * c.cost := fun c hc => hcost c (List.mem_cons_of_mem _ hc)
    have hle : s ≤ departure state call.now := by
      rw [departure, hs, Option.getD_some]
      exact le_max_left _ _
    rcases lt_or_ge cfg.maxQueueMs (departure state call.now - call.now) with h | h
    · rw [departures_of_lt h] at hd
      exact ih hrest hs d hd
    · rw [departures_of_le h] at hd
      rcases List.mem_cons.mp hd with rfl | hd
      · exact hle
      · have hlater := ih hrest rfl d hd
        have hinc := hcost call List.mem_cons_self
        linarith

/-- The departures are in order, each at least the emission interval times its cost before all later
ones, none after a longer wait than `maxQueueMs`. -/
structure Paced (cfg : Config) (ds : List Departure) : Prop where
  ordered : ds.Pairwise fun d e => d.at_ < e.at_
  spaced : ds.Pairwise fun d e => d.at_ + cfg.T * d.call.cost ≤ e.at_
  wait_le : ∀ d ∈ ds, 0 ≤ d.wait ∧ d.wait ≤ cfg.maxQueueMs

theorem T_pos (cfg : Config) : 0 < cfg.T := div_pos (by norm_num) cfg.ratePerSec_pos

/-- **Departures are paced.** -/
theorem paced_departures (hcost : ∀ c ∈ calls, 0 < c.cost) (state : Option ℚ) :
    Paced cfg (departures cfg state calls) := by
  have hinc : ∀ c ∈ calls, 0 < cfg.T * c.cost := fun c hc => mul_pos (T_pos cfg) (hcost c hc)
  clear hcost
  induction calls generalizing state with
  | nil => exact ⟨.nil, .nil, fun d hd => absurd hd List.not_mem_nil⟩
  | cons call calls ih =>
    have hrest : ∀ c ∈ calls, 0 < cfg.T * c.cost := fun c hc => hinc c (List.mem_cons_of_mem _ hc)
    rcases lt_or_ge cfg.maxQueueMs (departure state call.now - call.now) with h | h
    · rw [departures_of_lt h]
      exact ih state hrest
    · rw [departures_of_le h]
      obtain ⟨hordered, hspaced, hwait⟩ :=
        ih (some (departure state call.now + cfg.T * call.cost)) hrest
      have hlater :
          ∀ e ∈ departures cfg (some (departure state call.now + cfg.T * call.cost)) calls,
            departure state call.now + cfg.T * call.cost ≤ e.at_ :=
        fun e he => le_of_mem_departures (fun c hc => (hrest c hc).le) rfl e he
      refine ⟨List.pairwise_cons.mpr ⟨fun e he => ?_, hordered⟩,
        List.pairwise_cons.mpr ⟨hlater, hspaced⟩, fun d hd => ?_⟩
      · have hfirst := hinc call List.mem_cons_self
        have hle := hlater e he
        show departure state call.now < e.at_
        linarith
      · rcases List.mem_cons.mp hd with rfl | hd
        · exact ⟨sub_nonneg.mpr (le_departure _ _), h⟩
        · exact hwait d hd

/-- The reservations that are accepted are told their waits, rounded up. -/
theorem filter_answers_eq (state : Option ℚ) :
    (answers (served (reserve cfg)) state calls).filter Reservation.accepted
      = (departures cfg state calls).map Departure.told := by
  induction calls generalizing state with
  | nil => rfl
  | cons call calls ih =>
    rw [answers, served]
    rcases lt_or_ge cfg.maxQueueMs (departure state call.now - call.now) with h | h
    · rw [departures_of_lt h, reserve_of_lt h]
      exact (List.filter_cons_of_neg Bool.false_ne_true).trans (ih _)
    · rw [departures_of_le h, reserve_of_le h, List.map_cons]
      exact (List.filter_cons_of_pos rfl).trans (congrArg (_ :: ·) (ih _))

/-- What is told is the wait and less than a millisecond. -/
theorem wait_le_told (d : Departure) :
    d.wait ≤ d.told.delayMs ∧ d.told.delayMs < d.wait + 1 := ⟨Int.le_ceil _, Int.ceil_lt_add_one _⟩

/-- A queue of whole milliseconds is not told to be longer than it is. -/
theorem told_le {d : Departure} (hwait : d.wait ≤ cfg.maxQueueMs) (h : Whole cfg.maxQueueMs) :
    d.told.delayMs ≤ cfg.maxQueueMs := by
  have hle : ⌈d.wait⌉ ≤ ⌊cfg.maxQueueMs⌋ := by
    rw [Int.ceil_le, show ((⌊cfg.maxQueueMs⌋ : ℤ) : ℚ) = _ from h]
    exact hwait
  calc d.told.delayMs = ((⌈d.wait⌉ : ℤ) : ℚ) := rfl
    _ ≤ ((⌊cfg.maxQueueMs⌋ : ℤ) : ℚ) := Int.cast_le.mpr hle
    _ = cfg.maxQueueMs := h

/-- At whole milliseconds, and with whole increments, what is told is the wait. -/
theorem told_eq_wait (hcalls : ∀ c ∈ calls, Whole c.now ∧ Whole (cfg.T * c.cost)) :
    ∀ {state}, (∀ s ∈ state, Whole s) → ∀ d ∈ departures cfg state calls,
      d.told.delayMs = d.wait := by
  induction calls with
  | nil => exact fun _ d hd => absurd hd List.not_mem_nil
  | cons call calls ih =>
    intro state hs d hd
    have hrest : ∀ c ∈ calls, Whole c.now ∧ Whole (cfg.T * c.cost) :=
      fun c hc => hcalls c (List.mem_cons_of_mem _ hc)
    obtain ⟨hnow, hinc⟩ := hcalls call List.mem_cons_self
    have hdeparture : Whole (departure state call.now) := by
      rw [departure]
      rcases max_choice (state.getD call.now) call.now with h | h
      · rw [h]
        cases state with
        | none => exact hnow
        | some s => exact hs s rfl
      · rwa [h]
    rcases lt_or_ge cfg.maxQueueMs (departure state call.now - call.now) with h | h
    · rw [departures_of_lt h] at hd
      exact ih hrest hs d hd
    · rw [departures_of_le h] at hd
      rcases List.mem_cons.mp hd with rfl | hd
      · show ((⌈departure state call.now - call.now⌉ : ℤ) : ℚ) = departure state call.now - call.now
        have hcast : departure state call.now - call.now
            = ((⌊departure state call.now⌋ - ⌊call.now⌋ : ℤ) : ℚ) := by
          rw [Int.cast_sub, show ((⌊call.now⌋ : ℤ) : ℚ) = _ from hnow,
            show ((⌊departure state call.now⌋ : ℤ) : ℚ) = _ from hdeparture]
        rw [hcast, Int.ceil_intCast]
      · refine ih hrest (fun s hs' => ?_) d hd
        obtain rfl := Option.some.inj hs'
        have hcast : departure state call.now + cfg.T * call.cost
            = ((⌊departure state call.now⌋ + ⌊cfg.T * call.cost⌋ : ℤ) : ℚ) := by
          rw [Int.cast_add, show ((⌊cfg.T * call.cost⌋ : ℤ) : ℚ) = _ from hinc,
            show ((⌊departure state call.now⌋ : ℤ) : ℚ) = _ from hdeparture]
        rw [hcast]
        exact whole_intCast _

/-! ### The forms answer alike -/

/-- **The two transforms answer alike.** No call reads a slot that another call has set. -/
theorem answers_reserveSync (slots : Slots) (state : Option ℚ) :
    answers (reserveSync cfg) (slots, state) calls =
      answers (served (reserve cfg)) state calls := by
  induction calls generalizing slots state with
  | nil => rfl
  | cons call calls ih =>
    rw [answers, answers, ih]
    dsimp only [reserveSync, served]
    rw [syncTransform_eq]

/-- The record of the key holds the state in process, and dies no sooner than that has passed. -/
structure Same (key : Option (Key ℚ)) (state : Option ℚ) : Prop where
  value : key.map Key.value = state
  dies : ∀ k ∈ key, ∃ t, k.diesAt = some t ∧ ∀ now : ℚ, t < ⌊now⌋ → k.value ≤ now

variable {key : Option (Key ℚ)} {t : Timed}

/-- What the script finds leads to the departure in process. -/
theorem departure_read (h : Same key state) (hclock : OneClock t) :
    departure (read key t.server) t.call.now = departure state t.call.now := by
  obtain ⟨rfl⟩ := h.value
  cases hread : read key t.server with
  | some v =>
    obtain ⟨k, rfl, -, rfl⟩ := read_eq_some hread
    rfl
  | none =>
    cases key with
    | none => rfl
    | some k =>
      obtain ⟨dies, hdies, hpassed⟩ := h.dies k rfl
      obtain ⟨dies', hdies', hlt⟩ := read_eq_none hread k rfl
      rw [hdies] at hdies'
      obtain rfl := Option.some.inj hdies'
      rw [hclock.server] at hlt
      exact (max_getD_of_le (hpassed _ hlt)).symm

/-- **One call of the script and in process.** -/
theorem scripted_step (h : Same key state) (hclock : OneClock t) :
    (scripted cfg key t).2 = reply (served (reserve cfg) state t.call).2 ∧
      Same (scripted cfg key t).1 (served (reserve cfg) state t.call).1 := by
  have hdeparture := departure_read h hclock
  rw [scripted, served]
  dsimp only
  rw [luaScript_eq, hclock.now_eq]
  rcases lt_or_ge cfg.maxQueueMs (departure state t.call.now - t.call.now) with hlt | hle
  · rw [reserve_of_lt hlt, reserve_of_lt (by rwa [hdeparture]), hdeparture]
    exact ⟨rfl, h⟩
  · rw [reserve_of_le hle, reserve_of_le (by rwa [hdeparture]), hdeparture]
    refine ⟨rfl, rfl, fun k hk => ?_⟩
    obtain rfl := Option.some.inj hk
    refine ⟨_, rfl, fun now hlt => ?_⟩
    show departure state t.call.now + cfg.T * t.call.cost ≤ now
    have hstep := Int.cast_le (R := ℚ).mpr (Int.add_one_le_of_lt hlt)
    have hwhole := whole_ttl (departure state t.call.now + cfg.T * t.call.cost - t.call.now)
    push_cast at hstep
    rw [hclock.server, show ((⌊_⌋ : ℤ) : ℚ) = _ from hwhole] at hstep
    have hend :
        t.call.now + (departure state t.call.now + cfg.T * t.call.cost - t.call.now) ≤ now :=
      add_le_of_ttl (by linarith [Int.lt_floor_add_one t.call.now, Int.floor_le now])
    linarith

/-- **The script answers as the transforms do**, where 64 bits hold its replies. -/
theorem answers_scripted_iff {ts : List Timed} (hclock : ∀ t ∈ ts, OneClock t) :
    answers (scripted cfg) none ts
        = (answers (served (reserve cfg)) none (ts.map Timed.call)).map some ↔
      ∀ r ∈ answers (served (reserve cfg)) none (ts.map Timed.call), Fits r.delayMs := by
  have hreplies : answers (scripted cfg) none ts
      = (answers (served (reserve cfg)) none (ts.map Timed.call)).map reply := by
    have hstep : ∀ key state (t : Timed), Same key state → OneClock t →
        (scripted cfg key t).2 = reply (served (reserve cfg) state t.call).2 ∧
          Same (scripted cfg key t).1 (served (reserve cfg) state t.call).1 :=
      fun key state t h hclock => scripted_step h hclock
    have hlock := forall₂_answers (Q := fun r r' => r = reply r') hstep ts
      (show Same none none from ⟨rfl, by simp⟩) (allMet_of_forall ts hclock)
    have hcalls := answers_map (m := served (reserve cfg)) Timed.call none ts
    rwa [hcalls, ← List.forall₂_map_right_iff (R := Eq) (f := reply),
      List.forall₂_eq_eq_eq] at hlock
  rw [hreplies, List.map_inj_left]
  refine forall₂_congr fun r _ => ?_
  rw [reply]
  split <;> simp_all

/-- The largest wait that 64 bits hold. -/
def longestMs : ℚ := 2 ^ 63 - 1

theorem fits_ceil {x : ℚ} (h0 : 0 ≤ x) (h : x ≤ longestMs) : Fits ⌈x⌉ := by
  have hlow : (0 : ℚ) ≤ ⌈x⌉ := by exact_mod_cast Int.ceil_nonneg h0
  have hle : ⌈x⌉ ≤ (2 ^ 63 - 1 : ℤ) := Int.ceil_le.mpr (by
    rw [longestMs] at h
    push_cast
    linarith)
  have hhigh : ((⌈x⌉ : ℤ) : ℚ) ≤ ((2 ^ 63 - 1 : ℤ) : ℚ) := Int.cast_le.mpr hle
  constructor
  · linarith
  · push_cast at hhigh
    linarith

/-- 64 bits hold the replies to calls in the order of their times, if they hold the length of the
queue and each increment. -/
theorem fits_answers (hmax : cfg.maxQueueMs ≤ longestMs)
    (hinc : ∀ c ∈ calls, cfg.T * c.cost ≤ longestMs)
    (hsorted : calls.Pairwise fun c c' => c.now ≤ c'.now) :
    ∀ {state : Option ℚ}, (∀ s ∈ state, ∀ c ∈ calls, s ≤ c.now + cfg.maxQueueMs + longestMs) →
      ∀ r ∈ answers (served (reserve cfg)) state calls, Fits r.delayMs := by
  induction calls with
  | nil => exact fun _ r hr => absurd hr List.not_mem_nil
  | cons call calls ih =>
    intro state hstate r hr
    obtain ⟨hhead, htail⟩ := List.pairwise_cons.mp hsorted
    have ih := @ih (fun c hc => hinc c (List.mem_cons_of_mem _ hc)) htail
    rw [answers, served] at hr
    rcases lt_or_ge cfg.maxQueueMs (departure state call.now - call.now) with h | h
    · rw [reserve_of_lt h] at hr
      rcases List.mem_cons.mp hr with rfl | hr
      · refine fits_ceil (sub_pos.mpr h).le ?_
        have hlate : departure state call.now ≤ call.now + cfg.maxQueueMs + longestMs := by
          refine max_le ?_ (by linarith [cfg.maxQueueMs_nonneg])
          cases state with
          | none =>
            have hlongest : (0 : ℚ) ≤ longestMs := by norm_num [longestMs]
            show call.now ≤ call.now + cfg.maxQueueMs + longestMs
            linarith [cfg.maxQueueMs_nonneg]
          | some s => exact hstate s rfl call List.mem_cons_self
        linarith
      · exact ih (fun s hs c hc => hstate s hs c (List.mem_cons_of_mem _ hc)) r hr
    · rw [reserve_of_le h] at hr
      rcases List.mem_cons.mp hr with rfl | hr
      · exact fits_ceil (sub_nonneg.mpr (le_departure _ _)) (h.trans hmax)
      · refine ih (fun s hs c hc => ?_) r hr
        obtain rfl := Option.some.inj hs
        have hcost := hinc call List.mem_cons_self
        have hlater := hhead c hc
        linarith

end ThrottleKit.LeakyBucket
