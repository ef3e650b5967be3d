import ThrottleKit.Algorithms.Conformance
import ThrottleKit.Algorithms.FixedWindow
import ThrottleKit.Algorithms.Quota
import ThrottleKit.Lib.WindowCounter
import ThrottleKit.Redis.Key

/-!
# Window counters under an arbitrary clock

The fixed window and the calendar and anchored quotas count in one window at a time, that of the
last check they admitted. Checks come here at any instants in any order, and the store may lose the
state at any moment, as it does when its own clock finds it expired.

A window keeps to its limit as long as no check comes back to it after the state has moved on to
another one or was lost. A check that does finds a count of zero, and spends the limit again.

## Main definitions

* `FixedWindow.luaScript` — the Redis form of the fixed window
* `Counting` — a check that counts by window, with `FixedWindow.counting`,
  `FixedWindow.luaCounting` and `Quota.counting`
* `shared` — checks of one state, in any order
* `Remembered` — no check is made in a window that was forgotten

## Main results

* `ledger_shared` — the checks charge a counter that keeps one window
* `admitted_le_limit` — where no window is forgotten, each keeps to the limit
* `forgotten_window_overspends` — a forgotten window does not
-/

namespace ThrottleKit

open Lockstep Rounding

/-- `FIXED_WINDOW_LUA`: the hash it leaves, how long it lives, and the reply. -/
def FixedWindow.luaScript [Rounding] (cfg : Config) (hash : Option State) (now cost : ℚ) :
    ApplyOutcome State Decision :=
  let windowStart := startOf cfg.windowMs now
  let resetAt := fl (windowStart + cfg.windowMs)
  let count := countIn hash windowStart
  if fl (count + cost) ≤ cfg.limit then
    let newCount := fl (count + cost)
    { state := some ⟨windowStart, newCount⟩
      result := ⟨true, Redis.luaInteger cfg.limit, Redis.luaInteger (fl (cfg.limit - newCount)),
        Redis.luaInteger resetAt, 0⟩
      ttlMs := max 1 ⌈fl (resetAt - now)⌉
      persist := true }
  else
    { state := hash
      result := ⟨false, Redis.luaInteger cfg.limit,
        Redis.luaInteger (max 0 (fl (cfg.limit - count))), Redis.luaInteger resetAt,
        ⌈fl (resetAt - now)⌉⟩
      ttlMs := cfg.windowMs
      persist := false }

/-- A check that counts, against a limit, in the window its instant lies in. -/
structure Counting (S : Type) where
  check : Option S → ℚ → ℚ → ApplyOutcome S Decision
  limit : ℚ
  /-- The start of the window of an instant. -/
  windowOf : ℚ → ℚ
  /-- The window a state counts in, and its count. -/
  view : S → ℚ × ℚ
  limit_pos : 0 < limit
  charges : ∀ state now cost,
    WindowCounter.charge limit (state.map view) (windowOf now, cost)
      = ((served check state ⟨now, cost⟩).1.map view, (check state now cost).result.allowed)

theorem FixedWindow.count_view (state : Option State) (w : ℚ) :
    WindowCounter.count (state.map fun st => (st.start, st.count)) w = countIn state w := by
  cases state <;> rfl

theorem Quota.count_view (state : Option State) (w : ℚ) :
    WindowCounter.count (state.map fun st => (st.start, st.count)) w = countIn state w := by
  cases state <;> rfl

/-- The fixed window. -/
def FixedWindow.counting (cfg : Config) : Counting State where
  check := check cfg
  limit := cfg.limit
  windowOf := AlignedWindow.alignedStart cfg.windowMs
  view := fun st => (st.start, st.count)
  limit_pos := cfg.limit_pos
  charges := fun state now cost => by
    rw [WindowCounter.charge, served, check_eq]
    dsimp only
    rw [count_view]
    split <;> rfl

/-- The fixed window as a Redis script. -/
def FixedWindow.luaCounting (cfg : Config) : Counting State where
  check := luaScript cfg
  limit := cfg.limit
  windowOf := AlignedWindow.alignedStart cfg.windowMs
  view := fun st => (st.start, st.count)
  limit_pos := cfg.limit_pos
  charges := fun state now cost => by
    rw [WindowCounter.charge, served, luaScript]
    dsimp only
    rw [count_view, fl_exact, startOf_exact]
    split <;> rfl

/-- The quota, but for the rolling cadence. -/
def Quota.counting (cfg : Config) : Counting State where
  check := check cfg
  limit := cfg.limit
  windowOf := fun now => (cfg.resetCadence.bounds now).start
  view := fun st => (st.start, st.count)
  limit_pos := cfg.limit_pos
  charges := fun state now cost => by
    rw [WindowCounter.charge, served, check_eq]
    dsimp only
    rw [count_view]
    split <;> rfl

namespace ClockOrder

variable {S : Type}

/-- What happens to one shared state. -/
inductive Event
  | check (call : Call)
  /-- The store drops the state. -/
  | expire

/-- The shared state, with the checks that were admitted. -/
structure Shared (S : Type) where
  state : Option S
  admitted : List Call

/-- No state, and no checks yet. -/
def Shared.start : Shared S := ⟨none, []⟩

/-- The checks of one shared state, whatever their instants. -/
def shared (m : Counting S) : Service (Shared S) Event (Option Decision) := fun s e =>
  match e with
  | .check call =>
    let out := served m.check s.state call
    (⟨out.1, if out.2.allowed then s.admitted ++ [call] else s.admitted⟩, some out.2)
  | .expire => (⟨none, s.admitted⟩, none)

/-- The cost admitted by the checks in the window that starts at `w`. -/
def admittedIn (m : Counting S) (w : ℚ) (calls : List Call) : ℚ :=
  ((calls.filter fun call => m.windowOf call.now = w).map Call.cost).sum

/-- The state counts in the window of the check, or no check was admitted in it yet. -/
def Remembered (m : Counting S) (s : Shared S) : Event → Prop
  | .check call =>
    (∃ st ∈ s.state, (m.view st).1 = m.windowOf call.now) ∨
      ∀ c ∈ s.admitted, m.windowOf c.now ≠ m.windowOf call.now
  | .expire => True

instance (m : Counting S) (s : Shared S) : ∀ e, Decidable (Remembered m s e)
  | .check _ => inferInstanceAs (Decidable (_ ∨ _))
  | .expire => isTrue trivial

/-- The counter the state stands for, with what it was charged. -/
def ledger (m : Counting S) (s : Shared S) : WindowCounter.Ledger ℚ ℚ :=
  ⟨s.state.map m.view, s.admitted.map fun call => (m.windowOf call.now, call.cost)⟩

/-- The operation of the counter an event stands for. -/
def opOf (m : Counting S) : Event → WindowCounter.Op ℚ ℚ
  | .check call => .charge (m.windowOf call.now) call.cost
  | .expire => .forget

variable {m : Counting S} {s : Shared S}

theorem spent_ledger (w : ℚ) :
    WindowCounter.spent w (ledger m s).charged = admittedIn m w s.admitted := by
  rw [WindowCounter.spent, ledger, List.filter_map, List.map_map]
  rfl

/-- **The checks charge a counter that keeps one window.** -/
theorem ledger_shared (m : Counting S) (s : Shared S) (e : Event) :
    ledger m (shared m s e).1 = WindowCounter.next m.limit (ledger m s) (opOf m e) := by
  cases e with
  | expire => rfl
  | check call =>
    have hcharge := m.charges s.state call.now call.cost
    rw [opOf, WindowCounter.next, ledger, ledger, hcharge]
    refine congrArg (WindowCounter.Ledger.mk _) ?_
    rw [shared]
    dsimp only
    rw [apply_ite (List.map _), List.map_append]
    rfl

theorem known_opOf {e : Event} (h : Remembered m s e) : (opOf m e).Known (ledger m s) := by
  cases e with
  | expire => trivial
  | check call =>
    rcases h with ⟨st, hst, hw⟩ | hnone
    · exact .inl ⟨_, Option.mem_map_of_mem _ hst, hw⟩
    · refine .inr fun p hp => ?_
      obtain ⟨c, hc, rfl⟩ := List.mem_map.mp hp
      exact hnone c hc

/-- A run in which no window is forgotten keeps every window within the limit. -/
theorem within_after {events : List Event}
    (h : AllMet (shared m) (Remembered m) .start events) :
    WindowCounter.Within m.limit (ledger m (after (shared m) .start events)) := by
  refine after_of_allMet (I := fun s => WindowCounter.Within m.limit (ledger m s)) ?_ events
    (.start m.limit_pos.le) h
  intro s e hs hok
  rw [ledger_shared]
  exact hs.next (known_opOf hok)

/-- **In a window that was forgotten the limit can be spent again**: in any state, the check of that
cost is admitted, and takes the window over the limit. -/
theorem forgotten_overspends (hpos : ∀ c ∈ s.admitted, 0 < c.cost) {now : ℚ}
    (h : ¬ Remembered m s (.check ⟨now, m.limit⟩)) :
    m.limit < admittedIn m (m.windowOf now) (shared m s (.check ⟨now, m.limit⟩)).1.admitted := by
  rw [← spent_ledger, ledger_shared]
  refine WindowCounter.not_within_of_forgotten (fun p hp => ?_) fun hknown => h ?_
  · obtain ⟨c, hc, rfl⟩ := List.mem_map.mp hp
    exact hpos c hc
  · rcases hknown with ⟨p, hp, hw⟩ | hnone
    · obtain ⟨st, hst, rfl⟩ := Option.mem_map.mp hp
      exact .inl ⟨st, hst, hw⟩
    · exact .inr fun c hc => hnone _ (List.mem_map_of_mem hc)

/-- The strategies that count by window. -/
inductive Windowed
  | fixedWindow (cfg : FixedWindow.Config)
  | fixedWindowLua (cfg : FixedWindow.Config)
  | quota (cfg : Quota.Config)

/-- The state of a strategy. -/
abbrev Windowed.State : Windowed → Type
  | .fixedWindow _ => FixedWindow.State
  | .fixedWindowLua _ => FixedWindow.State
  | .quota _ => Quota.State

/-- How a strategy counts. -/
def Windowed.counting : (m : Windowed) → Counting m.State
  | .fixedWindow cfg => FixedWindow.counting cfg
  | .fixedWindowLua cfg => FixedWindow.luaCounting cfg
  | .quota cfg => Quota.counting cfg

/-- Three units a second. -/
def threePerSecond : FixedWindow.Config where
  limit := 3
  windowMs := 1000
  limit_pos := three_pos
  windowMs_pos := second_pos

/-- Three units a day, at an offset of an hour. -/
def threePerDay : Quota.Config where
  limit := 3
  resetCadence := .calendar .day 60 1
  limit_pos := three_pos

end ClockOrder

end ThrottleKit
