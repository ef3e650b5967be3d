import Mathlib.Algebra.Order.BigOperators.Group.List
import ThrottleKit.Core.Types
import ThrottleKit.Lib.AlignedWindow
import ThrottleKit.Lib.Machine
import ThrottleKit.Redis.Key

/-!
# The coordinator on Redis

Regions lease tokens of a per-key budget for the current window, and give back what they have left.
The budget of a key, the end of its window and the marks of the windows that were given back to are
one hash, which a lease or a reconcile reads and writes in one script. The scripts read the server's
clock.

Ghosts: `Server.clock` is the last reading of the clock, and `Server.received` what each region was
replied for each window.

## Main definitions

* `Hash`, `leaseLua`, `reconcileLua` — the two scripts
* `lease`, `leaseWindowed`, `reconcile` — the calls of a region
* `Act`, `Event`, `step` — any regions around one server
* `Admissible` — the clock does not go back, and a region gives back no more than it received

## Main results

* `lease_reconcile_conservation` — a window grants its budget and what was given back to it, the
  budget stays in its bounds, and giving back again changes nothing
* `credited_eq_leftover` — what is given back is credited in full or not at all
-/

namespace ThrottleKit.RedisCoordinator

open AlignedWindow Redis

/-- The options of a `RedisCoordinator`, validated, with its budgets. -/
structure Config where
  windowMs : ℚ
  /-- `budgetFor(key)`. -/
  budgetFor : String → ℚ
  /-- How Lua writes a number into a field name. -/
  luaText : ℚ → String
  one_le_windowMs : 1 ≤ windowMs
  one_le_budget : ∀ key, 1 ≤ budgetFor key

theorem Config.windowMs_pos (cfg : Config) : 0 < cfg.windowMs :=
  one_pos.trans_le cfg.one_le_windowMs

/-- The hash of a key. -/
structure Hash where
  budget : ℚ
  expiresAt : ℚ
  /-- The `rec_` fields that are set. -/
  markers : List String

/-- The field that marks a reconciled window. -/
def recField (cfg : Config) (windowStart : ℚ) : String := "rec_" ++ cfg.luaText windowStart

/-- The hash a script works on at `now`: the one there is, if it is of the current window. -/
def current (cfg : Config) (k : Option (Key Hash)) (now : ℤ) : Option Hash :=
  (read k now).filter fun h => h.expiresAt = alignedStart cfg.windowMs now + cfg.windowMs

/-- `HSET` and `PEXPIRE`: the key they leave, and whether `PEXPIRE` succeeds. A hash of another
window has been deleted before. -/
def commit (cfg : Config) (k : Option (Key Hash)) (now : ℤ) (h : Hash) : Key Hash × Bool :=
  let written := write (if (current cfg k now).isSome then k else none) now h
  match pexpire written now (max 1 (h.expiresAt - now)) with
  | some k' => (k', true)
  | none => (written, false)

/-- The budget a script finds. -/
def budgetAt (cfg : Config) (k : Option (Key Hash)) (now : ℤ) (perKeyBudget : ℚ) : ℚ :=
  match current cfg k now with
  | some h => h.budget
  | none => perKeyBudget

/-- The marks a script finds. -/
def markersAt (cfg : Config) (k : Option (Key Hash)) (now : ℤ) : List String :=
  match current cfg k now with
  | some h => h.markers
  | none => []

/-- What a script does: the key it leaves, the amount it moves, and its reply, `none` when it fails
on the way. -/
structure Outcome (R : Type) where
  key : Option (Key Hash)
  amount : ℚ
  reply : Option R

/-- The lease script. -/
def leaseLua (cfg : Config) (k : Option (Key Hash)) (now : ℤ) (tokens perKeyBudget : ℚ) :
    Outcome (ℤ × ℤ) :=
  let expiresAt := alignedStart cfg.windowMs now + cfg.windowMs
  let budget := budgetAt cfg k now perKeyBudget
  let granted := min tokens budget
  let r := commit cfg k now ⟨budget - granted, expiresAt, markersAt cfg k now⟩
  ⟨some r.1, granted, if r.2 then some (luaInteger granted, luaInteger expiresAt) else none⟩

/-- The reconcile script. -/
def reconcileLua (cfg : Config) (k : Option (Key Hash)) (now : ℤ)
    (leftover windowStart perKeyBudget : ℚ) : Outcome ℤ :=
  let currentWindowStart := alignedStart cfg.windowMs now
  -- a window that has rolled forfeits what is left of it
  if windowStart ≠ currentWindowStart then ⟨k, 0, some 0⟩
  else if (read k now).any fun h => recField cfg windowStart ∈ h.markers then ⟨k, 0, some 0⟩
  else
    let budget := budgetAt cfg k now perKeyBudget
    let budget' := min perKeyBudget (budget + leftover)
    let r := commit cfg k now ⟨budget', currentWindowStart + cfg.windowMs,
      markersAt cfg k now ++ [recField cfg windowStart]⟩
    ⟨some r.1, budget' - budget, if r.2 then some 1 else none⟩

/-- The server, as any regions see it. -/
structure Server where
  keys : String → Option (Key Hash)
  /-- Ghost: the last reading of the clock. -/
  clock : ℤ
  /-- Ghost: what a region was replied for a key and a window. -/
  received : String → String → ℚ → ℚ

/-- A server with no keys. -/
def Server.new (clock : ℤ) : Server := ⟨fun _ => none, clock, fun _ _ _ => 0⟩

/-- A call of a region, with the server's clock when its script runs. -/
inductive Act
  | lease (region key : String) (tokens : ℚ) (now : ℤ)
  | leaseWindowed (region key : String) (tokens : ℚ) (now : ℤ)
  | reconcile (region key : String) (leftover windowStart : ℚ) (now : ℤ)

/-- How a call throws. -/
inductive CallError
  | badTokens (tokens : ℚ)
  | badLeftover (leftover : ℚ)
  /-- The script failed. -/
  | unavailable (call key : String)

/-- The message of the thrown error, up to the server's own. -/
def CallError.message : CallError → String
  | .badTokens tokens =>
    "lease tokens must be a non-negative finite number, got " ++ toString tokens
  | .badLeftover leftover => "reconcile leftover must be non-negative, got " ++ toString leftover
  | .unavailable call key => "RedisCoordinator." ++ call ++ " failed for key \"" ++ key ++ "\": "

/-- What a call does. -/
inductive Event
  /-- The budget of the window was charged `tokens`, and the region was replied `reply`. -/
  | granted (region key : String) (windowStart tokens reply : ℚ)
  /-- The region's leftover of the window was handed in, and `credited` of it credited. -/
  | reconciled (region key : String) (windowStart leftover credited : ℚ)
  /-- A call threw. -/
  | threw (error : CallError)

/-- A region was replied for a window. -/
def Server.receive (s : Server) (region key : String) (windowStart reply : ℚ) : Server :=
  { s with received := fun r k w =>
      if r = region ∧ k = key ∧ w = windowStart then s.received r k w + reply
      else s.received r k w }

/-- The tokens in the reply of a lease. -/
def grantedIn : Option (ℤ × ℤ) → ℚ
  | some r => r.1
  | none => 0

/-- `#leaseWindowed(key, tokens)`. -/
def runLease (cfg : Config) (s : Server) (region key : String) (tokens : ℚ) (now : ℤ) :
    Server × List Event :=
  let out := leaseLua cfg (s.keys key) now tokens (cfg.budgetFor key)
  let windowStart := alignedStart cfg.windowMs now
  let reply := grantedIn out.reply
  let s' := { s with keys := Function.update s.keys key out.key, clock := now }
  (s'.receive region key windowStart reply,
    .granted region key windowStart out.amount reply ::
      if out.reply.isSome then [] else [.threw (.unavailable "lease" key)])

/-- `lease(key, tokens, expiresAt)`. -/
def lease (cfg : Config) (s : Server) (region key : String) (tokens : ℚ) (now : ℤ) :
    Server × List Event :=
  if tokens < 0 then (s, [.threw (.badTokens tokens)])
  else if tokens = 0 then (s, [])
  else runLease cfg s region key tokens now

/-- `leaseWindowed(key, tokens)`. -/
def leaseWindowed (cfg : Config) (s : Server) (region key : String) (tokens : ℚ) (now : ℤ) :
    Server × List Event :=
  if tokens < 0 then (s, [.threw (.badTokens tokens)])
  else runLease cfg s region key tokens now

/-- `reconcile(key, leftover, windowStart)`. -/
def reconcile (cfg : Config) (s : Server) (region key : String) (leftover windowStart : ℚ)
    (now : ℤ) : Server × List Event :=
  if leftover < 0 then (s, [.threw (.badLeftover leftover)])
  else if leftover = 0 then (s, [])
  else
    let out := reconcileLua cfg (s.keys key) now leftover windowStart (cfg.budgetFor key)
    ({ s with keys := Function.update s.keys key out.key, clock := now },
      .reconciled region key windowStart leftover out.amount ::
        if out.reply.isSome then [] else [.threw (.unavailable "reconcile" key)])

/-- Any regions around one server. -/
def step (cfg : Config) : Machine Server Act Event := fun s a =>
  match a with
  | .lease region key tokens now => some (lease cfg s region key tokens now)
  | .leaseWindowed region key tokens now => some (leaseWindowed cfg s region key tokens now)
  | .reconcile region key leftover windowStart now =>
    some (reconcile cfg s region key leftover windowStart now)

/-- The clock does not go back, and a region gives back at most what it received for the window. -/
def Admissible (s : Server) : Act → Prop
  | .lease _ _ _ now | .leaseWindowed _ _ _ now => s.clock ≤ now
  | .reconcile region key leftover windowStart now =>
    s.clock ≤ now ∧ leftover ≤ s.received region key windowStart

instance (s : Server) : ∀ a, Decidable (Admissible s a)
  | .lease _ _ _ _ | .leaseWindowed _ _ _ _ => inferInstanceAs (Decidable (_ ≤ _))
  | .reconcile _ _ _ _ _ => inferInstanceAs (Decidable (_ ∧ _))

/-! ### Totals of a window -/

/-- What an event charges to a window of a key. -/
def grantedFor (key : String) (w : ℚ) : Event → ℚ
  | .granted _ k windowStart tokens _ => if k = key ∧ windowStart = w then tokens else 0
  | _ => 0

/-- What an event credits to a window of a key. -/
def creditedFor (key : String) (w : ℚ) : Event → ℚ
  | .reconciled _ k windowStart _ credited => if k = key ∧ windowStart = w then credited else 0
  | _ => 0

/-- What was charged to a window of a key. -/
def totalGranted (key : String) (w : ℚ) (log : List Event) : ℚ := (log.map (grantedFor key w)).sum

/-- What was credited to a window of a key. -/
def totalCredited (key : String) (w : ℚ) (log : List Event) : ℚ := (log.map (creditedFor key w)).sum

theorem totalGranted_append (key : String) (w : ℚ) (l l' : List Event) :
    totalGranted key w (l ++ l') = totalGranted key w l + totalGranted key w l' := by
  simp [totalGranted]

theorem totalCredited_append (key : String) (w : ℚ) (l l' : List Event) :
    totalCredited key w (l ++ l') = totalCredited key w l + totalCredited key w l' := by
  simp [totalCredited]

/-! ### What the scripts find and leave -/

variable {cfg : Config} {s s' : Server} {log new : List Event} {key region : String} {now : ℤ}
  {k : Option (Key Hash)} {w : ℚ}

theorem current_eq_some {h : Hash} (hcur : current cfg k now = some h) :
    ∃ rec ∈ k, rec.live now = true ∧ rec.value = h ∧
      h.expiresAt = alignedStart cfg.windowMs now + cfg.windowMs := by
  obtain ⟨hread, hexpires⟩ := Option.filter_eq_some_iff.mp hcur
  obtain ⟨rec, hmem, hlive, hvalue⟩ := read_eq_some hread
  exact ⟨rec, hmem, hlive, hvalue, of_decide_eq_true hexpires⟩

/-- A record that is not worked on has expired, or is of another window. -/
theorem current_eq_none (hcur : current cfg k now = none) : ∀ rec ∈ k,
    (∃ t, rec.diesAt = some t ∧ t < now) ∨
      rec.value.expiresAt ≠ alignedStart cfg.windowMs now + cfg.windowMs := by
  intro rec hmem
  cases hread : read k now with
  | none => exact .inl (read_eq_none hread rec hmem)
  | some h =>
    obtain ⟨rec', hmem', -, rfl⟩ := read_eq_some hread
    obtain rfl := Option.mem_unique hmem hmem'
    refine .inr fun heq => ?_
    rw [current, hread, Option.filter_some, if_pos (by simpa using heq)] at hcur
    cases hcur

/-- A commit leaves the hash it was given, for no shorter than its window. -/
theorem commit_spec (cfg : Config) (k : Option (Key Hash)) (now : ℤ) {h : Hash} {e : ℚ}
    (he : h.expiresAt = e) (hk : ∀ rec ∈ k, rec.value.expiresAt = e → ∀ t ∈ rec.diesAt, e ≤ (t : ℚ))
    (hcur : ∀ h', current cfg k now = some h' → h'.expiresAt = e) :
    (commit cfg k now h).1.value = h ∧ ∀ t ∈ (commit cfg k now h).1.diesAt, e ≤ (t : ℚ) := by
  unfold commit
  dsimp only
  split
  · rename_i k' hp
    obtain ⟨hvalue, t, hdies, ht⟩ := diesAt_of_pexpire hp
    refine ⟨hvalue, fun t' ht' => ?_⟩
    obtain rfl : t = t' := Option.some.inj (hdies.symm.trans ht')
    have hmax := le_max_right 1 (h.expiresAt - now)
    rw [ht]
    linarith
  · refine ⟨rfl, fun t ht => ?_⟩
    obtain ⟨rec, hmem, hdies⟩ := Option.bind_eq_some_iff.mp ht
    split at hmem
    · rename_i hsome
      obtain ⟨h', hh'⟩ := Option.isSome_iff_exists.mp hsome
      obtain ⟨rec', hmem', -, hvalue, -⟩ := current_eq_some hh'
      obtain rfl := Option.mem_unique hmem hmem'
      split at hdies
      · exact hk rec hmem (hvalue ▸ hcur h' hh') t hdies
      · cases hdies
    · cases hmem

/-! ### What holds after any calls -/

/-- A window that no call has touched. -/
structure Untouched (s : Server) (log : List Event) (key : String) (w : ℚ) : Prop where
  granted : totalGranted key w log = 0
  credited : totalCredited key w log = 0
  received : ∀ region, s.received region key w = 0

/-- The record of `key` against what was granted and credited. `w` is the window of the hash. -/
structure Tracked (cfg : Config) (s : Server) (log : List Event) (key : String) (rec : Key Hash)
    (w : ℚ) : Prop where
  expiresAt : rec.value.expiresAt = w + cfg.windowMs
  aligned : ∃ t : ℚ, w = alignedStart cfg.windowMs t
  started : w ≤ alignedStart cfg.windowMs s.clock
  /-- It is there for its whole window. -/
  lives : ∀ t ∈ rec.diesAt, w + cfg.windowMs ≤ (t : ℚ)
  later : ∀ w', w < w' → Untouched s log key w'
  nonneg : 0 ≤ rec.value.budget
  le : rec.value.budget ≤ cfg.budgetFor key
  budget : rec.value.budget = cfg.budgetFor key - totalGranted key w log + totalCredited key w log
  /-- A window is given back to once. -/
  unmarked : recField cfg w ∉ rec.value.markers → totalCredited key w log = 0

/-- Whatever is given back to the window from now on changes nothing. -/
def Closed (cfg : Config) (s : Server) (key : String) (w : ℚ) : Prop :=
  w < alignedStart cfg.windowMs s.clock ∨
    ∃ rec ∈ s.keys key, rec.value.expiresAt = w + cfg.windowMs ∧ recField cfg w ∈ rec.value.markers

/-- The invariant of one key. -/
structure Conserved (cfg : Config) (s : Server) (log : List Event) (key : String) : Prop where
  granted_le : ∀ w, totalGranted key w log ≤ cfg.budgetFor key + totalCredited key w log
  credited_nonneg : ∀ w, 0 ≤ totalCredited key w log
  received_nonneg : ∀ region w, 0 ≤ s.received region key w
  received_le : ∀ region w, s.received region key w ≤ totalGranted key w log
  unwritten : s.keys key = none → ∀ w, Untouched s log key w
  written : ∀ rec ∈ s.keys key, ∃ w, Tracked cfg s log key rec w
  closed : ∀ region w leftover credited,
    .reconciled region key w leftover credited ∈ log → Closed cfg s key w

/-- A later reading of the clock is in no earlier window. -/
theorem alignedStart_le_of_clock_le (cfg : Config) {t t' : ℤ} (h : t ≤ t') :
    alignedStart cfg.windowMs t ≤ alignedStart cfg.windowMs (t' : ℚ) :=
  alignedStart_mono cfg.windowMs_pos (by exact_mod_cast h)

/-- The record of the current window is there, and is what a script works on. -/
theorem current_of_tracked {rec : Key Hash} (hrec : rec ∈ k)
    (h : Tracked cfg s log key rec (alignedStart cfg.windowMs now)) :
    current cfg k now = some rec.value := by
  have hlive : rec.live now = true := by
    unfold Key.live
    cases hdies : rec.diesAt with
    | none => rfl
    | some t =>
      have hle := h.lives t hdies
      have hlt := lt_alignedStart_add (t := (now : ℚ)) cfg.windowMs_pos
      exact decide_eq_true (by exact_mod_cast (hlt.trans_le hle).le)
  have hread : read k now = some rec.value := by
    rw [Option.mem_def.mp hrec, Redis.read, Option.bind_some, if_pos hlive]
  rw [current, hread, Option.filter_some, if_pos (decide_eq_true h.expiresAt)]

/-- What a script at `now` finds for the window of `now`. -/
structure Opened (cfg : Config) (s : Server) (log : List Event) (key : String) (now : ℤ) :
    Prop where
  nonneg : 0 ≤ budgetAt cfg (s.keys key) now (cfg.budgetFor key)
  le : budgetAt cfg (s.keys key) now (cfg.budgetFor key) ≤ cfg.budgetFor key
  budget : budgetAt cfg (s.keys key) now (cfg.budgetFor key)
    = cfg.budgetFor key - totalGranted key (alignedStart cfg.windowMs now) log
      + totalCredited key (alignedStart cfg.windowMs now) log
  unmarked : recField cfg (alignedStart cfg.windowMs now) ∉ markersAt cfg (s.keys key) now →
    totalCredited key (alignedStart cfg.windowMs now) log = 0
  later : ∀ w, alignedStart cfg.windowMs now < w → Untouched s log key w
  /-- Hashes of the window are worked on. -/
  worked : ∀ rec ∈ s.keys key,
    rec.value.expiresAt = alignedStart cfg.windowMs now + cfg.windowMs →
      current cfg (s.keys key) now = some rec.value
  /-- Hashes of other windows are of earlier ones. -/
  stale : ∀ rec ∈ s.keys key, ∀ w, rec.value.expiresAt = w + cfg.windowMs →
    w ≤ alignedStart cfg.windowMs now

theorem Conserved.opened (h : Conserved cfg s log key) (hnow : s.clock ≤ now) :
    Opened cfg s log key now := by
  have hmono := alignedStart_le_of_clock_le cfg hnow
  have hworked : ∀ rec ∈ s.keys key,
      rec.value.expiresAt = alignedStart cfg.windowMs now + cfg.windowMs →
        current cfg (s.keys key) now = some rec.value := by
    intro rec hrec hexpires
    obtain ⟨w, hw⟩ := h.written rec hrec
    obtain rfl : w = alignedStart cfg.windowMs now :=
      add_right_cancel (hw.expiresAt.symm.trans hexpires)
    exact current_of_tracked hrec hw
  have hstale : ∀ rec ∈ s.keys key, ∀ w, rec.value.expiresAt = w + cfg.windowMs →
      w ≤ alignedStart cfg.windowMs now := by
    intro rec hrec w hexpires
    obtain ⟨w', hw⟩ := h.written rec hrec
    obtain rfl : w' = w := add_right_cancel (hw.expiresAt.symm.trans hexpires)
    exact hw.started.trans hmono
  cases hcur : current cfg (s.keys key) now with
  | some hash =>
    obtain ⟨rec, hrec, -, rfl, hexpires⟩ := current_eq_some hcur
    obtain ⟨w, hw⟩ := h.written rec hrec
    obtain rfl : w = alignedStart cfg.windowMs now :=
      add_right_cancel (hw.expiresAt.symm.trans hexpires)
    refine ⟨?_, ?_, ?_, ?_, hw.later, hworked, hstale⟩
    · rw [budgetAt, hcur]
      exact hw.nonneg
    · rw [budgetAt, hcur]
      exact hw.le
    · rw [budgetAt, hcur]
      exact hw.budget
    · rw [markersAt, hcur]
      exact hw.unmarked
  | none =>
    have huntouched : ∀ w, alignedStart cfg.windowMs now ≤ w → Untouched s log key w := by
      cases hkey : s.keys key with
      | none => exact fun w _ => h.unwritten hkey w
      | some rec =>
        obtain ⟨w₀, hw₀⟩ := h.written rec hkey
        intro w hle
        refine hw₀.later w (lt_of_lt_of_le ?_ hle)
        rcases current_eq_none hcur rec hkey with ⟨t, hdies, hlt⟩ | hne
        · obtain ⟨t₀, rfl⟩ := hw₀.aligned
          have hpast : alignedStart cfg.windowMs t₀ + cfg.windowMs ≤ (now : ℚ) :=
            (hw₀.lives t hdies).trans (by exact_mod_cast hlt.le)
          exact (lt_add_of_pos_right _ cfg.windowMs_pos).trans_le
            (add_le_alignedStart cfg.windowMs_pos hpast)
        · exact lt_of_le_of_ne (hw₀.started.trans hmono) fun heq =>
            hne (heq ▸ hw₀.expiresAt)
    have hzero := huntouched _ le_rfl
    refine ⟨?_, ?_, ?_, fun _ => hzero.credited, fun w hlt => huntouched w hlt.le, hcur ▸ hworked,
      hstale⟩
    · rw [budgetAt, hcur]
      exact zero_le_one.trans (cfg.one_le_budget key)
    · rw [budgetAt, hcur]
    · rw [budgetAt, hcur, hzero.granted, hzero.credited]
      ring

/-- A window that was closed stays closed. -/
theorem Closed.mono (h : Closed cfg s key w) (hclock : s.clock ≤ s'.clock)
    (hkeys : s'.keys key = s.keys key) : Closed cfg s' key w := by
  rcases h with hlt | ⟨rec, hrec, hmark⟩
  · exact .inl (hlt.trans_le (alignedStart_le_of_clock_le cfg hclock))
  · exact .inr ⟨rec, hkeys ▸ hrec, hmark⟩

/-- Calls that leave the key alone. -/
theorem Conserved.frame (h : Conserved cfg s log key) (hkeys : s'.keys key = s.keys key)
    (hclock : s.clock ≤ s'.clock) (hreceived : ∀ region w, s'.received region key w
      = s.received region key w) (hgranted : ∀ w, totalGranted key w new = 0)
    (hcredited : ∀ w, totalCredited key w new = 0)
    (hnew : ∀ region w leftover credited, .reconciled region key w leftover credited ∈ new →
      Closed cfg s' key w) : Conserved cfg s' (log ++ new) key := by
  have hG : ∀ w, totalGranted key w (log ++ new) = totalGranted key w log := by
    intro w
    rw [totalGranted_append, hgranted, add_zero]
  have hC : ∀ w, totalCredited key w (log ++ new) = totalCredited key w log := by
    intro w
    rw [totalCredited_append, hcredited, add_zero]
  have huntouched : ∀ w, Untouched s log key w → Untouched s' (log ++ new) key w := fun w hw =>
    ⟨(hG w).trans hw.granted, (hC w).trans hw.credited,
      fun r => (hreceived r w).trans (hw.received r)⟩
  refine ⟨fun w => ?_, fun w => ?_, fun r w => ?_, fun r w => ?_, fun hnone w => ?_,
    fun rec hrec => ?_, fun r w leftover credited hmem => ?_⟩
  · rw [hG, hC]
    exact h.granted_le w
  · rw [hC]
    exact h.credited_nonneg w
  · rw [hreceived]
    exact h.received_nonneg r w
  · rw [hG, hreceived]
    exact h.received_le r w
  · exact huntouched w (h.unwritten (hkeys ▸ hnone) w)
  · obtain ⟨w, hw⟩ := h.written rec (hkeys ▸ hrec)
    exact ⟨w, hw.expiresAt, hw.aligned, hw.started.trans (alignedStart_le_of_clock_le cfg hclock),
      hw.lives, fun w' hlt => huntouched w' (hw.later w' hlt), hw.nonneg, hw.le,
      by rw [hG, hC]; exact hw.budget,
      fun hmark => (hC w).trans (hw.unmarked hmark)⟩
  · rcases List.mem_append.mp hmem with hold | hlast
    · exact (h.closed r w leftover credited hold).mono hclock hkeys
    · exact hnew r w leftover credited hlast

/-- What a script that writes does to its key: it charges `g` to the window of `now`, credits it
with `c`, and the region is replied `reply`. -/
structure Writes (cfg : Config) (s s' : Server) (new : List Event) (key region : String) (now : ℤ)
    (rec : Key Hash) (g c reply : ℚ) : Prop where
  wrote : s'.keys key = some rec
  clock : s'.clock = now
  expiresAt : rec.value.expiresAt = alignedStart cfg.windowMs now + cfg.windowMs
  lives : ∀ t ∈ rec.diesAt, alignedStart cfg.windowMs now + cfg.windowMs ≤ (t : ℚ)
  granted : ∀ w, totalGranted key w new = if w = alignedStart cfg.windowMs now then g else 0
  credited : ∀ w, totalCredited key w new = if w = alignedStart cfg.windowMs now then c else 0
  received : ∀ r w, s'.received r key w
    = if r = region ∧ w = alignedStart cfg.windowMs now then s.received r key w + reply
      else s.received r key w
  reply_nonneg : 0 ≤ reply
  reply_le : reply ≤ g
  credit_nonneg : 0 ≤ c
  budget : rec.value.budget = budgetAt cfg (s.keys key) now (cfg.budgetFor key) - g + c
  nonneg : 0 ≤ rec.value.budget
  le : rec.value.budget ≤ cfg.budgetFor key
  unmarked : recField cfg (alignedStart cfg.windowMs now) ∉ rec.value.markers →
    recField cfg (alignedStart cfg.windowMs now) ∉ markersAt cfg (s.keys key) now ∧ c = 0
  markers : ∀ m ∈ markersAt cfg (s.keys key) now, m ∈ rec.value.markers
  closed : ∀ r w leftover credited, .reconciled r key w leftover credited ∈ new →
    w = alignedStart cfg.windowMs now ∧ recField cfg w ∈ rec.value.markers

/-- **What a script writes keeps the key conserved.** -/
theorem Conserved.write (region : String) (rec : Key Hash) (g c reply : ℚ)
    (h : Conserved cfg s log key) (hnow : s.clock ≤ now)
    (hw : Writes cfg s s' new key region now rec g c reply) :
    Conserved cfg s' (log ++ new) key := by
  have ho := h.opened hnow
  have hG : ∀ w, totalGranted key w (log ++ new) = totalGranted key w log
      + if w = alignedStart cfg.windowMs now then g else 0 := by
    intro w
    rw [totalGranted_append, hw.granted]
  have hC : ∀ w, totalCredited key w (log ++ new) = totalCredited key w log
      + if w = alignedStart cfg.windowMs now then c else 0 := by
    intro w
    rw [totalCredited_append, hw.credited]
  have hg : 0 ≤ g := hw.reply_nonneg.trans hw.reply_le
  have hbudget := ho.budget
  have hwritten := hw.budget
  refine ⟨fun w => ?_, fun w => ?_, fun r w => ?_, fun r w => ?_, fun hnone => ?_,
    fun rec' hrec' => ?_, fun r w leftover credited hmem => ?_⟩
  · rw [hG, hC]
    by_cases hcase : w = alignedStart cfg.windowMs now
    · rw [if_pos hcase, if_pos hcase, hcase]
      linarith [hw.nonneg]
    · rw [if_neg hcase, if_neg hcase, add_zero, add_zero]
      exact h.granted_le w
  · rw [hC]
    split
    · exact add_nonneg (h.credited_nonneg w) hw.credit_nonneg
    · exact add_nonneg (h.credited_nonneg w) le_rfl
  · rw [hw.received]
    split
    · exact add_nonneg (h.received_nonneg r w) hw.reply_nonneg
    · exact h.received_nonneg r w
  · rw [hG, hw.received]
    by_cases hcase : w = alignedStart cfg.windowMs now
    · rw [if_pos hcase]
      split
      · exact add_le_add (h.received_le r w) hw.reply_le
      · exact le_add_of_le_of_nonneg (h.received_le r w) hg
    · rw [if_neg hcase, if_neg fun hand => hcase hand.2, add_zero]
      exact h.received_le r w
  · rw [hw.wrote] at hnone
    cases hnone
  · obtain rfl : rec = rec' := Option.some.inj (hw.wrote.symm.trans hrec')
    refine ⟨alignedStart cfg.windowMs now, hw.expiresAt, ⟨now, rfl⟩, by rw [hw.clock], hw.lives,
      fun w hlt => ?_, hw.nonneg, hw.le, ?_, fun hmark => ?_⟩
    · have hne := hlt.ne'
      have hold := ho.later w hlt
      refine ⟨?_, ?_, fun r => ?_⟩
      · rw [hG, if_neg hne, hold.granted, add_zero]
      · rw [hC, if_neg hne, hold.credited, add_zero]
      · rw [hw.received, if_neg fun hand => hne hand.2, hold.received]
    · rw [hG, hC, if_pos rfl, if_pos rfl]
      linarith
    · obtain ⟨hmark', hc⟩ := hw.unmarked hmark
      rw [hC, if_pos rfl, ho.unmarked hmark', hc, add_zero]
  · rcases List.mem_append.mp hmem with hold | hlast
    · rcases h.closed r w leftover credited hold with hlt | ⟨rec', hrec', hexpires, hmark⟩
      · exact .inl (hlt.trans_le (alignedStart_le_of_clock_le cfg (hw.clock ▸ hnow)))
      · rcases (ho.stale rec' hrec' w hexpires).lt_or_eq with hlt | rfl
        · exact .inl (by rw [hw.clock]; exact hlt)
        · refine .inr ⟨rec, hw.wrote, hw.expiresAt, hw.markers _ ?_⟩
          rw [markersAt, ho.worked rec' hrec' hexpires]
          exact hmark
    · obtain ⟨rfl, hmark⟩ := hw.closed r w leftover credited hlast
      exact .inr ⟨rec, hw.wrote, hw.expiresAt, hmark⟩

/-! ### The calls -/

/-- The record a script leaves for the current window. -/
theorem Conserved.commit_spec (h : Conserved cfg s log key) (now : ℤ) (hash : Hash)
    (hexpires : hash.expiresAt = alignedStart cfg.windowMs now + cfg.windowMs) :
    (commit cfg (s.keys key) now hash).1.value = hash ∧
      ∀ t ∈ (commit cfg (s.keys key) now hash).1.diesAt,
        alignedStart cfg.windowMs now + cfg.windowMs ≤ (t : ℚ) := by
  refine RedisCoordinator.commit_spec cfg _ now hexpires (fun rec hrec heq => ?_)
    fun hash' hcur => ?_
  · obtain ⟨w, hw⟩ := h.written rec hrec
    obtain rfl : w = alignedStart cfg.windowMs now :=
      add_right_cancel (hw.expiresAt.symm.trans heq)
    exact hw.lives
  · obtain ⟨-, -, -, -, heq⟩ := current_eq_some hcur
    exact heq

theorem totalGranted_cons (key : String) (w : ℚ) (e : Event) (l : List Event) :
    totalGranted key w (e :: l) = grantedFor key w e + totalGranted key w l := List.sum_cons

theorem totalCredited_cons (key : String) (w : ℚ) (e : Event) (l : List Event) :
    totalCredited key w (e :: l) = creditedFor key w e + totalCredited key w l := List.sum_cons

/-- An error moves nothing. -/
theorem totals_threw (key : String) (w : ℚ) (p : Prop) [Decidable p] (err : CallError) :
    totalGranted key w (if p then [] else [.threw err]) = 0 ∧
      totalCredited key w (if p then [] else [.threw err]) = 0 := by
  split <;> simp [totalGranted, totalCredited, grantedFor, creditedFor]

theorem not_mem_threw {p : Prop} [Decidable p] {err : CallError} {r k : String}
    {w leftover credited : ℚ} :
    Event.reconciled r k w leftover credited ∉ (if p then [] else [.threw err]) := by
  split <;> simp

/-- What the lease script does to a conserved key. -/
theorem Conserved.leaseLua_spec (h : Conserved cfg s log key) (hnow : s.clock ≤ now) {tokens : ℚ}
    (htokens : 0 ≤ tokens) {out : Outcome (ℤ × ℤ)}
    (hout : leaseLua cfg (s.keys key) now tokens (cfg.budgetFor key) = out) :
    ∃ rec : Key Hash, out.key = some rec ∧
      rec.value = ⟨budgetAt cfg (s.keys key) now (cfg.budgetFor key) - out.amount,
        alignedStart cfg.windowMs now + cfg.windowMs, markersAt cfg (s.keys key) now⟩ ∧
      (∀ t ∈ rec.diesAt, alignedStart cfg.windowMs now + cfg.windowMs ≤ (t : ℚ)) ∧
      out.amount ≤ budgetAt cfg (s.keys key) now (cfg.budgetFor key) ∧
      0 ≤ grantedIn out.reply ∧ grantedIn out.reply ≤ out.amount := by
  subst hout
  have hg : 0 ≤ min tokens (budgetAt cfg (s.keys key) now (cfg.budgetFor key)) :=
    le_min htokens (h.opened hnow).nonneg
  obtain ⟨hvalue, hlives⟩ := h.commit_spec now
    ⟨budgetAt cfg (s.keys key) now (cfg.budgetFor key)
      - min tokens (budgetAt cfg (s.keys key) now (cfg.budgetFor key)),
      alignedStart cfg.windowMs now + cfg.windowMs, markersAt cfg (s.keys key) now⟩ rfl
  refine ⟨_, rfl, hvalue, hlives, min_le_right _ _, ?_, ?_⟩
  · unfold leaseLua
    dsimp only
    split
    · exact luaInteger_nonneg hg
    · exact le_rfl
  · unfold leaseLua
    dsimp only
    split
    · exact luaInteger_le hg
    · exact hg

/-- A lease that runs keeps every key conserved. -/
theorem Conserved.runLease (region key : String) (h : ∀ key, Conserved cfg s log key) {tokens : ℚ}
    (htokens : 0 ≤ tokens) (hnow : s.clock ≤ now) (key' : String) :
    Conserved cfg (runLease cfg s region key tokens now).1
      (log ++ (RedisCoordinator.runLease cfg s region key tokens now).2) key' := by
  unfold RedisCoordinator.runLease
  dsimp only
  generalize hout : leaseLua cfg (s.keys key) now tokens (cfg.budgetFor key) = out
  by_cases hkey : key' = key
  · subst hkey
    obtain ⟨rec, hrec, hvalue, hlives, hle, hreply, hreplyLe⟩ :=
      (h key').leaseLua_spec hnow htokens hout
    have ho := (h key').opened hnow
    refine (h key').write region rec out.amount 0 (grantedIn out.reply) hnow ?_
    refine ⟨?_, rfl, by rw [hvalue], hlives, fun w => ?_, fun w => ?_, fun r w => ?_, hreply,
      hreplyLe, le_rfl, by rw [hvalue, add_zero], by rw [hvalue]; exact sub_nonneg.mpr hle, ?_,
      fun hmark => ⟨by rwa [hvalue] at hmark, rfl⟩, fun m hm => by rw [hvalue]; exact hm,
      fun r w leftover credited hmem => ?_⟩
    · exact (Function.update_self ..).trans hrec
    · rw [totalGranted_cons, (totals_threw _ _ _ _).1, add_zero]
      simp [grantedFor, eq_comm]
    · rw [totalCredited_cons, (totals_threw _ _ _ _).2, add_zero]
      simp [creditedFor]
    · simp [Server.receive]
    · rw [hvalue]
      linarith [ho.le, hreply.trans hreplyLe]
    · rcases List.mem_cons.mp hmem with heq | hmem
      · cases heq
      · exact absurd hmem not_mem_threw
  · have hne : ¬ key = key' := fun heq => hkey heq.symm
    refine (h key').frame (Function.update_of_ne hkey _ _) hnow (fun r w => ?_) (fun w => ?_)
      (fun w => ?_) fun r w leftover credited hmem => ?_
    · simp [Server.receive, hkey]
    · rw [totalGranted_cons, (totals_threw _ _ _ _).1]
      simp [grantedFor, hne]
    · rw [totalCredited_cons, (totals_threw _ _ _ _).2]
      simp [creditedFor]
    · rcases List.mem_cons.mp hmem with heq | hmem
      · cases heq
      · exact absurd hmem not_mem_threw

/-- A region that received something for a window received it in a window that has started, and the
hash of the window is still there while it lasts. -/
theorem Conserved.of_received (h : Conserved cfg s log key) (hnow : s.clock ≤ now)
    (hpos : 0 < s.received region key w) :
    w ≤ alignedStart cfg.windowMs now ∧ (w = alignedStart cfg.windowMs now →
      ∃ rec ∈ s.keys key, rec.value.expiresAt = w + cfg.windowMs) := by
  have huntouched : ¬ Untouched s log key w := fun hw => hpos.ne' (hw.received region)
  refine ⟨not_lt.mp fun hlt => huntouched ((h.opened hnow).later w hlt), fun hw => ?_⟩
  cases hkey : s.keys key with
  | none => exact absurd (h.unwritten hkey w) huntouched
  | some rec =>
    obtain ⟨w₀, hw₀⟩ := h.written rec hkey
    have hle : w ≤ w₀ := not_lt.mp fun hlt => huntouched (hw₀.later w hlt)
    have hge : w₀ ≤ w := hw ▸ hw₀.started.trans (alignedStart_le_of_clock_le cfg hnow)
    exact ⟨rec, rfl, by rw [hw₀.expiresAt, le_antisymm hle hge]⟩

/-- What the reconcile script does to a conserved key, for a region that received what it gives
back. -/
theorem Conserved.reconcileLua_cases (h : Conserved cfg s log key) (hnow : s.clock ≤ now)
    {leftover : ℚ} (hpos : 0 < leftover) (hle : leftover ≤ s.received region key w)
    {out : Outcome ℤ}
    (hout : reconcileLua cfg (s.keys key) now leftover w (cfg.budgetFor key) = out) :
    (out.key = s.keys key ∧ out.amount = 0 ∧
        (w < alignedStart cfg.windowMs now ∨ ∃ rec ∈ s.keys key,
          rec.value.expiresAt = w + cfg.windowMs ∧ recField cfg w ∈ rec.value.markers)) ∨
      (w = alignedStart cfg.windowMs now ∧ out.amount = leftover ∧ ∃ rec : Key Hash,
        out.key = some rec ∧
        rec.value = ⟨budgetAt cfg (s.keys key) now (cfg.budgetFor key) + leftover,
          alignedStart cfg.windowMs now + cfg.windowMs,
          markersAt cfg (s.keys key) now ++ [recField cfg w]⟩ ∧
        rec.value.budget ≤ cfg.budgetFor key ∧
        ∀ t ∈ rec.diesAt, alignedStart cfg.windowMs now + cfg.windowMs ≤ (t : ℚ)) := by
  obtain ⟨hstarted, hthere⟩ := h.of_received hnow (hpos.trans_le hle)
  have ho := h.opened hnow
  unfold reconcileLua at hout
  dsimp only at hout
  split at hout
  · rename_i hrolled
    subst hout
    exact .inl ⟨rfl, rfl, .inl (lt_of_le_of_ne hstarted hrolled)⟩
  · rename_i hsame
    have hw : w = alignedStart cfg.windowMs now := not_not.mp hsame
    obtain ⟨rec, hrec, hexpires⟩ := hthere hw
    have hcur := ho.worked rec hrec (hw ▸ hexpires)
    split at hout
    · rename_i hmarked
      subst hout
      obtain ⟨rec', hrec', -, hread, -⟩ := current_eq_some hcur
      obtain rfl := Option.mem_unique hrec hrec'
      obtain ⟨hash, hhash, hmark⟩ := (Option.any_eq_true _ _).mp hmarked
      obtain ⟨rec'', hrec'', -, rfl⟩ := read_eq_some hhash
      obtain rfl := Option.mem_unique hrec hrec''
      exact .inl ⟨rfl, rfl, .inr ⟨rec, hrec, hexpires, of_decide_eq_true hmark⟩⟩
    · rename_i hunmarked
      -- nothing has been credited to the window, so the leftover fits under the budget
      have hfresh : recField cfg w ∉ markersAt cfg (s.keys key) now := by
        intro hmark
        rw [markersAt, hcur] at hmark
        obtain ⟨hread, -⟩ := Option.filter_eq_some_iff.mp hcur
        exact hunmarked ((Option.any_eq_true _ _).mpr ⟨rec.value, hread, decide_eq_true hmark⟩)
      have hcap : budgetAt cfg (s.keys key) now (cfg.budgetFor key) + leftover
          ≤ cfg.budgetFor key := by
        rw [ho.budget, ho.unmarked (hw ▸ hfresh), ← hw]
        linarith [h.received_le region w]
      rw [min_eq_right hcap] at hout
      obtain ⟨hvalue, hlives⟩ := h.commit_spec now
        ⟨budgetAt cfg (s.keys key) now (cfg.budgetFor key) + leftover,
          alignedStart cfg.windowMs now + cfg.windowMs,
          markersAt cfg (s.keys key) now ++ [recField cfg w]⟩ rfl
      subst hout
      exact .inr ⟨hw, add_sub_cancel_left _ _, _, rfl, hvalue, by rw [hvalue]; exact hcap, hlives⟩

/-- A reconcile that runs keeps every key conserved. -/
theorem Conserved.reconcile (h : ∀ key, Conserved cfg s log key) {leftover : ℚ}
    (hnow : s.clock ≤ now) (hle : leftover ≤ s.received region key w) (key' : String) :
    Conserved cfg (reconcile cfg s region key leftover w now).1
      (log ++ (RedisCoordinator.reconcile cfg s region key leftover w now).2) key' := by
  unfold RedisCoordinator.reconcile
  split
  · exact (h key').frame rfl le_rfl (fun _ _ => rfl) (by simp [totalGranted, grantedFor])
      (by simp [totalCredited, creditedFor]) (by simp)
  split
  · rw [List.append_nil]
    exact h key'
  rename_i hneg hzero
  have hpos : 0 < leftover := lt_of_le_of_ne (not_lt.mp hneg) (Ne.symm hzero)
  dsimp only
  generalize hout : reconcileLua cfg (s.keys key) now leftover w (cfg.budgetFor key) = out
  by_cases hkey : key' = key
  · subst hkey
    rcases (h key').reconcileLua_cases hnow hpos hle hout with
      ⟨hsame, hamount, hclosed⟩ | ⟨rfl, hamount, rec, hrec, hvalue, hcap, hlives⟩
    · refine (h key').frame ((Function.update_self ..).trans hsame) hnow (fun _ _ => rfl)
        (fun w' => ?_) (fun w' => ?_) fun r w' leftover' credited hmem => ?_
      · rw [totalGranted_cons, (totals_threw _ _ _ _).1]
        simp [grantedFor]
      · rw [totalCredited_cons, (totals_threw _ _ _ _).2]
        simp [creditedFor, hamount]
      · rcases List.mem_cons.mp hmem with heq | hmem
        · obtain ⟨-, -, rfl, -, -⟩ := Event.reconciled.inj heq
          rcases hclosed with hlt | ⟨rec, hrec, hmark⟩
          · exact .inl hlt
          · exact .inr ⟨rec, (Function.update_self ..).trans (hsame.trans hrec), hmark⟩
        · exact absurd hmem not_mem_threw
    · have ho := (h key').opened hnow
      refine (h key').write region rec 0 leftover 0 hnow ?_
      refine ⟨(Function.update_self ..).trans hrec, rfl, by rw [hvalue], hlives, fun w' => ?_,
        fun w' => ?_, fun r w' => ?_, le_rfl, le_rfl, hpos.le, by rw [hvalue, sub_zero],
        by rw [hvalue]; exact add_nonneg ho.nonneg hpos.le, hcap, fun hmark => ?_, fun m hm => ?_,
        fun r w' leftover' credited hmem => ?_⟩
      · rw [totalGranted_cons, (totals_threw _ _ _ _).1]
        simp [grantedFor]
      · rw [totalCredited_cons, (totals_threw _ _ _ _).2, add_zero]
        simp [creditedFor, hamount, eq_comm]
      · simp
      · rw [hvalue] at hmark
        simp at hmark
      · rw [hvalue]
        exact List.mem_append_left _ hm
      · rcases List.mem_cons.mp hmem with heq | hmem
        · obtain ⟨-, -, rfl, -, -⟩ := Event.reconciled.inj heq
          rw [hvalue]
          exact ⟨rfl, List.mem_append_right _ (List.mem_singleton.mpr rfl)⟩
        · exact absurd hmem not_mem_threw
  · have hne : ¬ key = key' := fun heq => hkey heq.symm
    refine (h key').frame (Function.update_of_ne hkey _ _) hnow (fun _ _ => rfl) (fun w' => ?_)
      (fun w' => ?_) fun r w' leftover' credited hmem => ?_
    · rw [totalGranted_cons, (totals_threw _ _ _ _).1]
      simp [grantedFor]
    · rw [totalCredited_cons, (totals_threw _ _ _ _).2]
      simp [creditedFor, hne]
    · rcases List.mem_cons.mp hmem with heq | hmem
      · obtain ⟨-, rfl, -, -, -⟩ := Event.reconciled.inj heq
        exact absurd rfl hne
      · exact absurd hmem not_mem_threw

/-! ### Every run -/

/-- The calls that validate their arguments and stop there. -/
theorem Conserved.noop (h : ∀ key, Conserved cfg s log key) (err : CallError) (key' : String) :
    Conserved cfg s (log ++ [.threw err]) key' :=
  (h key').frame rfl le_rfl (fun _ _ => rfl) (by simp [totalGranted, grantedFor])
    (by simp [totalCredited, creditedFor]) (by simp)

/-- **What a call can do**: nothing but throw, a lease, or a reconcile. -/
theorem step_cases {a : Act} (hok : Admissible s a) (h : step cfg s a = some (s', new)) :
    (s' = s ∧ (new = [] ∨ ∃ err, new = [.threw err])) ∨
    (∃ region key tokens now, 0 ≤ tokens ∧ s.clock ≤ now ∧
      runLease cfg s region key tokens now = (s', new)) ∨
    ∃ region key leftover w now, s.clock ≤ now ∧ leftover ≤ s.received region key w ∧
      reconcile cfg s region key leftover w now = (s', new) := by
  cases a with
  | lease region key tokens now =>
    have heq : lease cfg s region key tokens now = (s', new) := Option.some.inj h
    unfold lease at heq
    split at heq
    · obtain ⟨rfl, rfl⟩ := Prod.mk.inj heq
      exact .inl ⟨rfl, .inr ⟨_, rfl⟩⟩
    · rename_i hneg
      split at heq
      · obtain ⟨rfl, rfl⟩ := Prod.mk.inj heq
        exact .inl ⟨rfl, .inl rfl⟩
      · exact .inr (.inl ⟨region, key, tokens, now, not_lt.mp hneg, hok, heq⟩)
  | leaseWindowed region key tokens now =>
    have heq : leaseWindowed cfg s region key tokens now = (s', new) := Option.some.inj h
    unfold leaseWindowed at heq
    split at heq
    · obtain ⟨rfl, rfl⟩ := Prod.mk.inj heq
      exact .inl ⟨rfl, .inr ⟨_, rfl⟩⟩
    · rename_i hneg
      exact .inr (.inl ⟨region, key, tokens, now, not_lt.mp hneg, hok, heq⟩)
  | reconcile region key leftover w now =>
    exact .inr (.inr ⟨region, key, leftover, w, now, hok.1, hok.2, Option.some.inj h⟩)

/-- One call keeps every key conserved. -/
theorem Conserved.step {a : Act} (h : ∀ key, Conserved cfg s log key) (hok : Admissible s a)
    (hstep : step cfg s a = some (s', new)) (key' : String) :
    Conserved cfg s' (log ++ new) key' := by
  rcases step_cases hok hstep with ⟨rfl, rfl | ⟨err, rfl⟩⟩ |
    ⟨region, key, tokens, now, htokens, hnow, heq⟩ |
    ⟨region, key, leftover, w, now, hnow, hle, heq⟩
  · rw [List.append_nil]
    exact h key'
  · exact .noop h err key'
  · have hrun := Conserved.runLease region key h htokens hnow key'
    rwa [heq] at hrun
  · have hrun := Conserved.reconcile h hnow hle key'
    rwa [heq] at hrun

theorem conserved_of_run {clock : ℤ} (h : (step cfg).Run Admissible (.new clock) log s) :
    ∀ key, Conserved cfg s log key := by
  refine h.invariant (I := fun s log => ∀ key, Conserved cfg s log key) (fun key => ?_)
    fun s log a s' new hI hok hstep => .step hI hok hstep
  exact ⟨fun w => zero_le_one.trans ((cfg.one_le_budget key).trans (le_add_of_nonneg_right le_rfl)),
    fun _ => le_rfl, fun _ _ => le_rfl, fun _ _ => le_rfl, fun _ _ => ⟨rfl, rfl, fun _ => rfl⟩,
    by rintro rec ⟨⟩, by simp⟩

/-- A leftover of another window than the current one changes no key. -/
theorem reconcile_keys_of_ne {leftover : ℚ} (hne : w ≠ alignedStart cfg.windowMs now) :
    (reconcile cfg s region key leftover w now).1.keys = s.keys := by
  unfold reconcile
  split
  · rfl
  split
  · rfl
  dsimp only
  rw [reconcileLua, if_pos hne]
  exact Function.update_eq_self key s.keys

/-- A leftover of a window that was given back to changes no key. -/
theorem Conserved.reconcile_keys_of_closed (h : Conserved cfg s log key) (hnow : s.clock ≤ now)
    (hclosed : Closed cfg s key w) (region : String) (leftover : ℚ) :
    (RedisCoordinator.reconcile cfg s region key leftover w now).1.keys = s.keys := by
  by_cases hw : w = alignedStart cfg.windowMs now
  · obtain ⟨rec, hrec, hexpires, hmark⟩ := hclosed.resolve_left fun hlt =>
      (hlt.trans_le (alignedStart_le_of_clock_le cfg hnow)).ne hw
    have hcur := (h.opened hnow).worked rec hrec (hw ▸ hexpires)
    obtain ⟨hread, -⟩ := Option.filter_eq_some_iff.mp hcur
    have hmarked : ((read (s.keys key) now).any fun h => recField cfg w ∈ h.markers) = true :=
      (Option.any_eq_true _ _).mpr ⟨rec.value, hread, decide_eq_true hmark⟩
    unfold RedisCoordinator.reconcile
    split
    · rfl
    split
    · rfl
    dsimp only
    rw [reconcileLua, if_neg (not_not.mpr hw), if_pos hmarked]
    exact Function.update_eq_self key s.keys
  · exact reconcile_keys_of_ne hw

/-- What an event says of its amounts: a region is replied no more than its window is charged, and
is credited with what it gives back, or with nothing. -/
def Event.Honest : Event → Prop
  | .granted _ _ _ tokens reply => 0 ≤ reply ∧ reply ≤ tokens
  | .reconciled _ _ _ leftover credited => credited = leftover ∨ credited = 0
  | .threw _ => True

theorem honest_threw {p : Prop} [Decidable p] {err : CallError} {e : Event}
    (h : e ∈ (if p then [] else [Event.threw err])) : e.Honest := by
  split at h
  · cases h
  · obtain rfl := List.mem_singleton.mp h
    trivial

theorem honest_runLease (region key : String) (h : ∀ key, Conserved cfg s log key) {tokens : ℚ}
    (htokens : 0 ≤ tokens) (hnow : s.clock ≤ now) :
    ∀ e ∈ (runLease cfg s region key tokens now).2, e.Honest := by
  intro e he
  obtain ⟨-, -, -, -, -, hreply, hle⟩ := (h key).leaseLua_spec hnow htokens rfl
  rcases List.mem_cons.mp he with rfl | hmem
  · exact ⟨hreply, hle⟩
  · exact honest_threw hmem

theorem honest_reconcile (h : ∀ key, Conserved cfg s log key) {leftover : ℚ} (hnow : s.clock ≤ now)
    (hle : leftover ≤ s.received region key w) :
    ∀ e ∈ (reconcile cfg s region key leftover w now).2, e.Honest := by
  intro e he
  unfold reconcile at he
  split at he
  · obtain rfl := List.mem_singleton.mp he
    trivial
  rename_i hneg
  split at he
  · cases he
  rename_i hzero
  rcases List.mem_cons.mp he with rfl | hmem
  · rcases (h key).reconcileLua_cases hnow (lt_of_le_of_ne (not_lt.mp hneg) (Ne.symm hzero))
      hle rfl with ⟨-, hamount, -⟩ | ⟨-, hamount, -⟩
    · exact .inr hamount
    · exact .inl hamount
  · exact honest_threw hmem

theorem honest_step {a : Act} (h : ∀ key, Conserved cfg s log key) (hok : Admissible s a)
    (hstep : step cfg s a = some (s', new)) : ∀ e ∈ new, e.Honest := by
  rcases step_cases hok hstep with ⟨rfl, rfl | ⟨err, rfl⟩⟩ |
    ⟨region, key, tokens, now, htokens, hnow, heq⟩ |
    ⟨region, key, leftover, w, now, hnow, hle, heq⟩
  · intro e he
    cases he
  · intro e he
    obtain rfl := List.mem_singleton.mp he
    trivial
  · have hhonest := honest_runLease region key h htokens hnow
    rwa [heq] at hhonest
  · have hhonest := honest_reconcile h hnow hle
    rwa [heq] at hhonest

theorem ten_one_le : (1 : ℚ) ≤ 10 := by norm_num

/-- A budget of ten a second. -/
def tenASecond : Config where
  windowMs := 1000
  budgetFor _ := 10
  luaText w := if w = 0 then "0" else "1000"
  one_le_windowMs := one_le_second
  one_le_budget _ := ten_one_le

end ThrottleKit.RedisCoordinator
