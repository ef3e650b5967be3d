import Mathlib.Data.PNat.Basic
import ThrottleKit.Core.Limiter
import ThrottleKit.Lib.Lockstep
import ThrottleKit.Lib.Machine

/-!
# The token budget of a fleet

Gateways debit one counter in a shared store. The counter belongs to a window; a debit at or past
the end of that window starts a fresh one, aligned at the epoch, and every other debit is counted in
the window it finds. A debit is admitted while fewer than `L` tokens have been served in its window,
and the one that crosses `L` is counted in full.

Each gateway brings its own clock, and the store judges the expiry of the counter by the clock of
whoever applies a debit. A gateway that is behind is counted in a window that is yet to start by its
clock. One that is ahead starts the next window, and finds the counter expired only when it would
have started a fresh window anyway. Windows thus only move forward, and none is served afresh, as
long as the doubles serve: where the end that is computed for the window of a clock reading is not
past the reading, each debit at that reading starts the same window again, and a count past `2 ^ 53`
stops growing. `InTime` says that neither happens to a debit.

## Main definitions

* `rolled`, `debitTransform` — one debit as a transition of the counter
* `fleet` — any number of gateways debiting one counter
* `InTime` — the doubles of a debit serve
* `servedIn`, `largestIn` — the tokens served in a window, and the largest debit of it
* `tokenBudget` — the meter of one process

## Main results

* `fleet_within_budget` — no window serves more than `L - 1` and its largest debit
* `fleet_restarts_window` — a window is served twice when its end is not past the clock
* `shared_eq_tokenBudget` — the expiry of the counter is never seen
-/

namespace ThrottleKit.DistributedBudget

open Rounding

/-- The options of `distributedTokenBudget`, validated. -/
structure Config where
  budget : ℚ
  windowMs : ℚ
  /-- The counter's key in the store. -/
  key : String
  one_le_budget : 1 ≤ budget
  windowMs_pos : 0 < windowMs

/-- The budget, floored. -/
def Config.L (cfg : Config) : ℤ := ⌊cfg.budget⌋

theorem Config.L_pos (cfg : Config) : 0 < cfg.L :=
  Int.floor_pos.mpr cfg.one_le_budget

/-- The active window and the tokens served fleet-wide within it. -/
structure BudgetState where
  /-- Epoch-ms start of the window this count belongs to. -/
  w : ℚ
  /-- Tokens served in the window starting at `w`. -/
  s : ℚ

section Debit

variable [Rounding]

/-- `rolled(state, now)`: the tokens served in the live window, and its start. -/
def rolled (cfg : Config) (state : Option BudgetState) (now : ℚ) : ℚ × ℚ :=
  match state with
  | none => (0, startOf cfg.windowMs now)
  | some st =>
    if fl (st.w + cfg.windowMs) ≤ now then (0, startOf cfg.windowMs now) else (st.s, st.w)

/-- `debitTransform(now, tokens)`. -/
def debitTransform (cfg : Config) (now : ℚ) (tokens : ℕ+) (state : Option BudgetState) :
    ApplyOutcome BudgetState Decision :=
  let (served, windowStart) := rolled cfg state now
  let resetAt : ℚ := ⌈fl (windowStart + cfg.windowMs)⌉
  if cfg.L ≤ served then
    { state := state
      result := ⟨false, cfg.L, 0, resetAt, max 0 ⌈fl (resetAt - now)⌉⟩
      ttlMs := cfg.windowMs
      persist := false }
  else
    let newServed := fl (served + tokens)
    { state := some ⟨windowStart, newServed⟩
      result := ⟨true, cfg.L, max 0 (fl (cfg.L - newServed)), resetAt, 0⟩
      ttlMs := max 1 (fl (resetAt - now))
      persist := true }

/-- When the store lets go of a counter of a window that was written at `now`. -/
def expiry (cfg : Config) (window now : ℚ) : ℚ :=
  fl (now + max 0 (max 1 (fl (⌈fl (window + cfg.windowMs)⌉ - now))))

theorem debitTransform_of_spent {cfg : Config} {state : Option BudgetState} {now window found : ℚ}
    (hr : rolled cfg state now = (found, window)) (h : cfg.L ≤ found) (tokens : ℕ+) :
    debitTransform cfg now tokens state =
      { state := state
        result := ⟨false, cfg.L, 0, ⌈fl (window + cfg.windowMs)⌉,
          max 0 ⌈fl (⌈fl (window + cfg.windowMs)⌉ - now)⌉⟩
        ttlMs := cfg.windowMs
        persist := false } := by
  unfold debitTransform
  rw [hr]
  exact if_pos h

theorem debitTransform_of_left {cfg : Config} {state : Option BudgetState} {now window found : ℚ}
    (hr : rolled cfg state now = (found, window)) (h : found < cfg.L) (tokens : ℕ+) :
    debitTransform cfg now tokens state =
      { state := some ⟨window, fl (found + tokens)⟩
        result := ⟨true, cfg.L, max 0 (fl (cfg.L - fl (found + tokens))),
          ⌈fl (window + cfg.windowMs)⌉, 0⟩
        ttlMs := max 1 (fl (⌈fl (window + cfg.windowMs)⌉ - now))
        persist := true } := by
  unfold debitTransform
  rw [hr]
  exact if_neg (not_le.mpr h)

/-- Tokens that were served are those of the state. -/
theorem eq_some_of_rolled_pos {cfg : Config} {state : Option BudgetState}
    {now window found : ℚ} (hr : rolled cfg state now = (found, window)) (h : 0 < found) :
    state = some ⟨window, found⟩ := by
  unfold rolled at hr
  split at hr
  · obtain ⟨rfl, -⟩ := Prod.mk.inj hr
    exact absurd h (lt_irrefl 0)
  · split at hr
    · obtain ⟨rfl, -⟩ := Prod.mk.inj hr
      exact absurd h (lt_irrefl 0)
    · obtain ⟨rfl, rfl⟩ := Prod.mk.inj hr
      rfl

end Debit

/-! ### The fleet -/

/-- A debit, at the reading of the gateway's own clock. -/
structure Debit (ι : Type) where
  gateway : ι
  now : ℚ
  tokens : ℕ+

/-- What became of a debit. -/
structure Debited (ι : Type) where
  debit : Debit ι
  /-- Start of the window it is counted in. -/
  window : ℚ
  /-- The tokens that were counted in the window before it. -/
  found : ℚ
  decision : Decision

/-- Gateways debiting one counter in any order. -/
def fleet [Rounding] (cfg : Config) (ι : Type) :
    Machine (Entries BudgetState) (Debit ι) (Debited ι) :=
  fun e d =>
    let out := e.applySync cfg.key (debitTransform cfg d.now d.tokens) d.now
    let (found, window) := rolled cfg (e.pending cfg.key d.now) d.now
    some (out.1, [⟨d, window, found, out.2⟩])

variable {ι : Type}

/-- The doubles of a debit serve: the window it is counted in has not ended by its clock, the
counter it writes lives to the end of that window, and the count stays within 53 bits. -/
structure InTime [Rounding] (cfg : Config) (e : Entries BudgetState) (d : Debit ι) : Prop where
  inside : d.now < fl ((rolled cfg (e.pending cfg.key d.now) d.now).2 + cfg.windowMs)
  lives : fl ((rolled cfg (e.pending cfg.key d.now) d.now).2 + cfg.windowMs)
    ≤ expiry cfg (rolled cfg (e.pending cfg.key d.now) d.now).2 d.now
  counts : (rolled cfg (e.pending cfg.key d.now) d.now).1 + d.tokens ≤ 2 ^ 53

instance InTime.decidable [Rounding] (cfg : Config) (e : Entries BudgetState) (d : Debit ι) :
    Decidable (InTime cfg e d) :=
  decidable_of_iff (_ ∧ _ ∧ _) ⟨fun ⟨h, h', h''⟩ => ⟨h, h', h''⟩, fun ⟨h, h', h''⟩ => ⟨h, h', h''⟩⟩

instance (cfg : Config) (e : Entries BudgetState) (d : Debit ι) :
    Decidable (@InTime ι doubles cfg e d) :=
  @InTime.decidable ι doubles cfg e d

/-- The tokens served in the window that starts at `w`. -/
def servedIn (w : ℚ) (log : List (Debited ι)) : ℤ :=
  (log.map fun e => if e.window = w ∧ e.decision.allowed then (e.debit.tokens : ℤ) else 0).sum

/-- The largest debit admitted in the window that starts at `w`. -/
def largestIn (w : ℚ) (log : List (Debited ι)) : ℤ :=
  log.foldr (fun e m =>
    if e.window = w ∧ e.decision.allowed then max (e.debit.tokens : ℤ) m else m) 0

theorem servedIn_concat (w : ℚ) (log : List (Debited ι)) (e : Debited ι) :
    servedIn w (log ++ [e]) = servedIn w log +
      if e.window = w ∧ e.decision.allowed then (e.debit.tokens : ℤ) else 0 := by
  simp [servedIn]

theorem servedIn_nonneg (w : ℚ) (log : List (Debited ι)) : 0 ≤ servedIn w log := by
  induction log with
  | nil => exact le_rfl
  | cons e log ih =>
    rw [servedIn, List.map_cons, List.sum_cons]
    refine add_nonneg ?_ ih
    split
    · exact Int.natCast_nonneg _
    · exact le_rfl

theorem servedIn_eq_zero {w : ℚ} {log : List (Debited ι)}
    (h : ∀ e ∈ log, e.decision.allowed = true → e.window ≠ w) : servedIn w log = 0 := by
  refine List.sum_eq_zero fun x hx => ?_
  obtain ⟨e, he, rfl⟩ := List.mem_map.mp hx
  exact if_neg fun hw => h e he hw.2 hw.1

/-- The largest debit is no smaller than any of the window, nor than none. -/
theorem largestIn_concat (w : ℚ) (log : List (Debited ι)) (e : Debited ι) :
    largestIn w (log ++ [e]) = max (largestIn w log)
      (if e.window = w ∧ e.decision.allowed then (e.debit.tokens : ℤ) else 0) := by
  unfold largestIn
  induction log with
  | nil =>
    simp only [List.nil_append, List.foldr_cons, List.foldr_nil]
    split
    · exact max_comm _ _
    · exact (max_self 0).symm
  | cons e' log ih =>
    simp only [List.cons_append, List.foldr_cons]
    rw [ih]
    split
    · exact (max_assoc _ _ _).symm
    · rfl

/-! ### One debit -/

section Step

variable [Rounding] {cfg : Config} {e e' : Entries BudgetState} {log new : List (Debited ι)}
  {d : Debit ι}

/-- The counter against what was served: it stands for the latest window in which anything was,
which was not over when it was started, and lives to the end of that window. -/
structure Counts (cfg : Config) (e : Entries BudgetState) (log : List (Debited ι)) : Prop where
  unserved : e cfg.key = none → ∀ ev ∈ log, ev.decision.allowed = false
  started : ∀ st due, e cfg.key = some (st, due) →
    ∃ t, Inside cfg.windowMs t ∧ startOf cfg.windowMs t = st.w
  lives : ∀ st due, e cfg.key = some (st, due) → fl (st.w + cfg.windowMs) ≤ due
  served : ∀ st due, e cfg.key = some (st, due) → st.s = servedIn st.w log
  latest : ∀ st due, e cfg.key = some (st, due) →
    ∀ ev ∈ log, ev.decision.allowed = true → ev.window ≤ st.w

theorem counts_empty (cfg : Config) : Counts cfg .empty ([] : List (Debited ι)) where
  unserved _ ev hev := absurd hev List.not_mem_nil
  started _ _ h := by cases h
  lives _ _ h := by cases h
  served _ _ h := by cases h
  latest _ _ h := by cases h

/-- The end of the stored window decides, whether or not the entry has expired by then. -/
theorem Counts.rolled_pending (h : Counts cfg e log) (now : ℚ) :
    rolled cfg (e.pending cfg.key now) now
      = rolled cfg ((e cfg.key).map Prod.fst) now := by
  cases hentry : e cfg.key with
  | none => rw [Entries.pending, hentry]; rfl
  | some entry =>
    rw [Entries.pending, hentry, Option.bind_some, Option.map_some]
    split
    · rename_i hdue
      exact (if_pos ((h.lives entry.1 entry.2 hentry).trans hdue)).symm
    · rfl

/-- What a debit finds: what was served in the window it is counted in, which no other debit's
window is later than, and which was not over when it was started. -/
theorem Counts.find (h : Counts cfg e log) (htime : InTime cfg e d) :
    (rolled cfg (e.pending cfg.key d.now) d.now).1
        = servedIn (rolled cfg (e.pending cfg.key d.now) d.now).2 log ∧
      (∃ t, Inside cfg.windowMs t ∧
        startOf cfg.windowMs t = (rolled cfg (e.pending cfg.key d.now) d.now).2) ∧
      ∀ ev ∈ log, ev.decision.allowed = true →
        ev.window ≤ (rolled cfg (e.pending cfg.key d.now) d.now).2 := by
  have hinside := htime.inside
  rw [h.rolled_pending] at hinside ⊢
  cases hentry : e cfg.key with
  | none =>
    rw [hentry] at hinside
    have hnone : ∀ ev ∈ log, ¬ ev.decision.allowed = true := fun ev hev hallowed =>
      Bool.false_ne_true ((h.unserved hentry ev hev).symm.trans hallowed)
    refine ⟨?_, ⟨d.now, hinside, rfl⟩, fun ev hev hallowed => absurd hallowed (hnone ev hev)⟩
    rw [servedIn_eq_zero fun ev hev hallowed => absurd hallowed (hnone ev hev), Int.cast_zero]
    rfl
  | some entry =>
    obtain ⟨st, due⟩ := entry
    rw [hentry] at hinside
    rw [Option.map_some] at hinside ⊢
    obtain ⟨t, ht, hstart⟩ := h.started st due hentry
    have hlatest := h.latest st due hentry
    unfold rolled at hinside ⊢
    dsimp only at hinside ⊢
    by_cases hend : fl (st.w + cfg.windowMs) ≤ d.now
    · rw [if_pos hend] at hinside ⊢
      have hnext : st.w < startOf cfg.windowMs d.now := by
        rw [← hstart] at hend ⊢
        exact startOf_lt_of_ended cfg.windowMs_pos ht hinside hend
      refine ⟨?_, ⟨d.now, hinside, rfl⟩, fun ev hev hallowed =>
        (hlatest ev hev hallowed).trans hnext.le⟩
      rw [servedIn_eq_zero fun ev hev hallowed => ((hlatest ev hev hallowed).trans_lt hnext).ne,
        Int.cast_zero]
    · rw [if_neg hend]
      exact ⟨h.served st due hentry, ⟨t, ht, hstart⟩, hlatest⟩

/-- **One debit**: it is refused once `L` tokens have been served in its window, and then nothing
changes; otherwise it is counted in full. -/
theorem fleet_cases (htime : InTime cfg e d) (hcounts : Counts cfg e log)
    (h : fleet cfg ι e d = some (e', new)) :
    ∃ ev : Debited ι, new = [ev] ∧ ev.debit = d ∧
      (ev.found, ev.window) = rolled cfg (e.pending cfg.key d.now) d.now ∧
      ((ev.decision.allowed = false ∧ cfg.L ≤ ev.found ∧ e' = e) ∨
        (ev.decision.allowed = true ∧ ev.found < cfg.L ∧ ∃ due,
          fl (ev.window + cfg.windowMs) ≤ due ∧
          e' = Function.update e cfg.key (some (⟨ev.window, ev.found + d.tokens⟩, due)))) := by
  have hfound := (hcounts.find htime).1
  obtain ⟨-, hlives, hsmall⟩ := htime
  unfold fleet at h
  dsimp only at h
  generalize hr : rolled cfg (e.pending cfg.key d.now) d.now = r at h hfound hlives hsmall ⊢
  obtain ⟨found, window⟩ := r
  obtain ⟨rfl, rfl⟩ := Prod.mk.inj (Option.some.inj h)
  refine ⟨_, rfl, rfl, rfl, ?_⟩
  rw [Entries.applySync_snd]
  rcases le_or_gt (cfg.L : ℚ) found with hspent | hleft
  · have hout := debitTransform_of_spent hr hspent d.tokens
    rw [hout]
    exact .inl ⟨rfl, hspent, Entries.applySync_of_not_persist (by rw [hout])⟩
  · have hout := debitTransform_of_left hr hleft d.tokens
    have hexact : fl (found + d.tokens) = found + d.tokens := by
      have hcast : found + (d.tokens : ℕ) = ((servedIn window log + (d.tokens : ℕ) : ℤ) : ℚ) := by
        push_cast
        rw [← hfound]
      have hnonneg : 0 ≤ servedIn window log + ((d.tokens : ℕ) : ℤ) :=
        add_nonneg (servedIn_nonneg _ _) (Int.natCast_nonneg _)
      have hle : servedIn window log + ((d.tokens : ℕ) : ℤ) ≤ 2 ^ 53 := by
        have : ((servedIn window log + (d.tokens : ℕ) : ℤ) : ℚ) ≤ 2 ^ 53 := hcast ▸ hsmall
        exact_mod_cast this
      rw [hcast]
      exact fl_intCast _ (abs_le.mpr ⟨by linarith, hle⟩)
    rw [hout]
    refine .inr ⟨rfl, hleft, _, hlives, ?_⟩
    rw [Entries.applySync_of_persist_rounded (by rw [hout]), hout]
    simp only [Option.map_some, hexact]
    rfl

/-- A debit keeps the counter counting. -/
theorem Counts.step (h : Counts cfg e log) (htime : InTime cfg e d)
    (hs : fleet cfg ι e d = some (e', new)) : Counts cfg e' (log ++ new) := by
  obtain ⟨hfound, hstarted, hlatest⟩ := h.find htime
  obtain ⟨ev, rfl, rfl, hrolled, hcase⟩ := fleet_cases htime h hs
  rw [← hrolled] at hfound hstarted hlatest
  dsimp only at hfound hstarted hlatest
  rcases hcase with ⟨hdenied, -, rfl⟩ | ⟨hallowed, -, due, hdue, rfl⟩
  · -- Nothing is served, so nothing is counted.
    refine ⟨fun hnone ev' hev' => ?_, h.started, h.lives, fun st due hst => ?_,
      fun st due hst ev' hev' hallowed => ?_⟩
    · rcases List.mem_append.mp hev' with hmem | hmem
      · exact h.unserved hnone ev' hmem
      · rwa [List.mem_singleton.mp hmem]
    · rw [servedIn_concat, if_neg (by simp [hdenied]), add_zero]
      exact h.served st due hst
    · rcases List.mem_append.mp hev' with hmem | hmem
      · exact h.latest st due hst ev' hmem hallowed
      · rw [List.mem_singleton.mp hmem, hdenied] at hallowed
        cases hallowed
  · refine ⟨fun hnone => ?_, fun st due' hst => ?_, fun st due' hst => ?_, fun st due' hst => ?_,
      fun st due' hst ev' hev' hallowed' => ?_⟩
    · rw [Function.update_self] at hnone
      cases hnone
    all_goals
      rw [Function.update_self] at hst
      obtain ⟨rfl, rfl⟩ := Prod.mk.inj (Option.some.inj hst)
    · exact hstarted
    · exact hdue
    · rw [servedIn_concat, if_pos ⟨rfl, hallowed⟩]
      push_cast
      rw [← hfound]
    · rcases List.mem_append.mp hev' with hmem | hmem
      · exact hlatest ev' hmem hallowed'
      · exact (congrArg Debited.window (List.mem_singleton.mp hmem)).le

/-- What the budget promises of a log. -/
structure Budgeted (cfg : Config) (log : List (Debited ι)) : Prop where
  /-- A debit is admitted exactly while its window has served less than `L`. -/
  admits : Machine.EachAt (fun pre ev =>
    ev.decision.allowed = true ↔ servedIn ev.window pre < cfg.L) log
  /-- It finds all that was served in its window before it: no window is ever reset. -/
  found : Machine.EachAt (fun pre ev => ev.found = servedIn ev.window pre) log
  /-- It is not counted in a window that something was served after, nor in one that has ended by
  its own clock. -/
  forward : Machine.EachAt (fun pre ev => ev.debit.now < fl (ev.window + cfg.windowMs) ∧
    ∀ ev' ∈ pre, ev'.decision.allowed = true → ev'.window ≤ ev.window) log
  /-- A window serves no more than `L - 1` tokens and its largest debit. -/
  within : ∀ w, servedIn w log ≤ cfg.L - 1 + largestIn w log

theorem Budgeted.step (hcounts : Counts cfg e log) (h : Budgeted cfg log) (htime : InTime cfg e d)
    (hs : fleet cfg ι e d = some (e', new)) : Budgeted cfg (log ++ new) := by
  obtain ⟨hfound, -, hlatest⟩ := hcounts.find htime
  have hinside := htime.inside
  obtain ⟨ev, rfl, rfl, hrolled, hcase⟩ := fleet_cases htime hcounts hs
  rw [← hrolled] at hfound hinside hlatest
  dsimp only at hfound hinside hlatest
  have hadmits : ev.decision.allowed = true ↔ servedIn ev.window log < cfg.L := by
    rw [hfound, Int.cast_le, Int.cast_lt] at hcase
    rcases hcase with ⟨hdenied, hspent, -⟩ | ⟨hallowed, hleft, -⟩
    · rw [hdenied]
      exact ⟨fun hfalse => absurd hfalse Bool.false_ne_true,
        fun hlt => absurd hspent (not_le.mpr hlt)⟩
    · exact ⟨fun _ => hleft, fun _ => hallowed⟩
  refine ⟨Machine.eachAt_concat.mpr ⟨h.admits, hadmits⟩,
    Machine.eachAt_concat.mpr ⟨h.found, hfound⟩,
    Machine.eachAt_concat.mpr ⟨h.forward, hinside, hlatest⟩, fun w => ?_⟩
  rw [servedIn_concat, largestIn_concat]
  have hbefore := h.within w
  split
  · rename_i hev
    obtain ⟨rfl, hallowed⟩ := hev
    have hleft := hadmits.mp hallowed
    have hmax := le_max_right (largestIn ev.window log) (ev.debit.tokens : ℤ)
    omega
  · have hmax := le_max_left (largestIn w log) 0
    omega

end Step

/-- **No window serves more than `L - 1` tokens and its largest debit**, whoever debits, in whatever
order and by whatever clock, as long as the doubles of the debits serve. -/
theorem fleet_within_budget [Rounding] {cfg : Config} {log : List (Debited ι)}
    {e : Entries BudgetState} (h : (fleet cfg ι).Run (InTime cfg) .empty log e) :
    Budgeted cfg log := by
  have hnil : Budgeted cfg ([] : List (Debited ι)) := by
    refine ⟨Machine.eachAt_nil _, Machine.eachAt_nil _, Machine.eachAt_nil _, fun w => ?_⟩
    have hL := cfg.L_pos
    show (0 : ℤ) ≤ cfg.L - 1 + 0
    omega
  refine (h.invariant (I := fun e log => Counts cfg e log ∧ Budgeted cfg log)
    ⟨counts_empty cfg, hnil⟩ ?_).2
  rintro e log d e' new ⟨hcounts, hbudgeted⟩ htime hs
  exact ⟨hcounts.step htime hs, hbudgeted.step hcounts htime hs⟩

/-- Ten tokens a second. -/
def tenPerSecond : Config := ⟨10, 1000, "tpm", one_le_ten, second_pos⟩

/-- The third gateway's clock is ahead and starts the next window; the first two are counted there
from then on, though by their clocks the first window is not over. -/
theorem fleet_within_budget_skewed : @Budgeted _ doubles tenPerSecond
    (((@fleet doubles tenPerSecond (Fin 3)).exec .empty
      [⟨0, 900, 6⟩, ⟨1, 950, 6⟩, ⟨2, 1005, 1⟩, ⟨0, 990, 12⟩, ⟨1, 960, 1⟩]).get
        (by decide +kernel)).2 :=
  @fleet_within_budget _ doubles _ _ _
    (Machine.run_of_isSome (by decide +kernel) (by decide +kernel))

/-! ### The condition is needed -/

theorem sixtieth_pos : 0 < Double.roundRat (1000 / 60) := by decide +kernel

/-- One token in a sixtieth of a second. -/
def onePerSixtieth : Config := ⟨1, Double.roundRat (1000 / 60), "tpm", le_rfl, sixtieth_pos⟩

/-- **A window is served twice when its end is not past the clock.** By doubles the window of 250 ms
ends at 250 ms, so the second debit starts it again. -/
theorem fleet_restarts_window : ¬ ∀ (log : List (Debited Unit)) (e : Entries BudgetState),
    (@fleet doubles onePerSixtieth Unit).Run (fun _ _ => True) .empty log e →
      ∀ w, servedIn w log ≤ onePerSixtieth.L - 1 + largestIn w log := by
  intro h
  have hrun := Machine.run_of_isSome (m := @fleet doubles onePerSixtieth Unit)
    (p := fun _ _ => True) (s := .empty) (l := [⟨(), 250, 1⟩, ⟨(), 250, 1⟩]) (by decide +kernel)
    (by decide +kernel)
  exact absurd (h _ _ hrun (@startOf doubles onePerSixtieth.windowMs 250)) (by decide +kernel)

/-! ### The meter of one process -/

/-- The variables of `tokenBudget`. -/
structure Meter where
  /-- `none` before the first debit (`-Infinity`). -/
  windowStart : Option ℚ
  served : ℚ

section Meter

variable [Rounding]

/-- `rollWindow(now)`. -/
def rollWindow (cfg : Config) (m : Meter) (now : ℚ) : Meter :=
  if m.windowStart.all fun w => fl (w + cfg.windowMs) ≤ now then
    ⟨some (startOf cfg.windowMs now), 0⟩
  else m

/-- `debitSync(tokens)`. -/
def debitSync (cfg : Config) : Lockstep.Service Meter (ℚ × ℕ+) Decision := fun m d =>
  let m := rollWindow cfg m d.1
  let windowStart := m.windowStart.getD 0
  let resetAt : ℚ := ⌈fl (windowStart + cfg.windowMs)⌉
  if cfg.L ≤ m.served then (m, ⟨false, cfg.L, 0, resetAt, max 0 ⌈fl (resetAt - d.1)⌉⟩)
  else
    let served := fl (m.served + d.2)
    (⟨m.windowStart, served⟩, ⟨true, cfg.L, max 0 (fl (cfg.L - served)), resetAt, 0⟩)

/-- Debits of one gateway on the shared counter. -/
def sharedDebit (cfg : Config) : Lockstep.Service (Entries BudgetState) (ℚ × ℕ+) Decision :=
  fun e d => e.applySync cfg.key (debitTransform cfg d.1 d.2) d.1

end Meter

/-- The counter and the meter stand for the same window. -/
structure SameWindow (cfg : Config) (e : Entries BudgetState) (m : Meter) : Prop where
  fresh : e cfg.key = none → m.windowStart = none
  same : ∀ st due, e cfg.key = some (st, due) →
    fl (st.w + cfg.windowMs) ≤ due ∧ m = ⟨some st.w, st.s⟩

/-- The meter rolls to what a debit of the counter finds. -/
theorem SameWindow.rollWindow_eq {cfg : Config} {e : Entries BudgetState} {m : Meter}
    (h : SameWindow cfg e m) (now : ℚ) :
    rollWindow cfg m now = ⟨some (rolled cfg (e.pending cfg.key now) now).2,
      (rolled cfg (e.pending cfg.key now) now).1⟩ := by
  unfold rollWindow Entries.pending
  cases hentry : e cfg.key with
  | none =>
    rw [h.fresh hentry]
    rfl
  | some entry =>
    obtain ⟨st, due⟩ := entry
    obtain ⟨hlives, rfl⟩ := h.same st due hentry
    rw [Option.bind_some, Option.all_some]
    by_cases hend : fl (st.w + cfg.windowMs) ≤ now
    · rw [if_pos (decide_eq_true hend)]
      split
      · rfl
      · rw [rolled, if_pos hend]
    · rw [if_neg (by simpa using hend), if_neg fun hdue => hend (hlives.trans hdue), rolled,
        if_neg hend]

/-- A counter is kept to the end of its window. -/
theorem le_expiry (windowEnd now : ℚ) :
    windowEnd ≤ now + max 0 (max 1 ((⌈windowEnd⌉ : ℚ) - now)) := by
  have hceil : windowEnd ≤ ((⌈windowEnd⌉ : ℤ) : ℚ) := Int.le_ceil _
  have hone := le_max_right (1 : ℚ) (((⌈windowEnd⌉ : ℤ) : ℚ) - now)
  have hzero := le_max_right (0 : ℚ) (max 1 (((⌈windowEnd⌉ : ℤ) : ℚ) - now))
  linarith

/-- **The expiry of the counter is never seen**, where nothing is rounded: one gateway on the shared
counter is told what the meter of one process is told, whatever its clock reads. -/
theorem shared_eq_tokenBudget (cfg : Config) (debits : List (ℚ × ℕ+)) :
    Lockstep.answers (sharedDebit cfg) .empty debits
      = Lockstep.answers (debitSync cfg) ⟨none, 0⟩ debits := by
  rw [← List.forall₂_eq_eq_eq]
  have hstart : SameWindow cfg .empty ⟨none, 0⟩ := ⟨fun _ => rfl, fun _ _ h => by cases h⟩
  refine Lockstep.forall₂_answers ?_ debits hstart (Lockstep.allMet_of_forall debits fun _ _ =>
    trivial)
  rintro e m ⟨now, tokens⟩ h -
  have hroll := h.rollWindow_eq now
  unfold sharedDebit debitSync
  dsimp only
  rw [hroll, Entries.applySync_snd]
  generalize hr : rolled cfg (e.pending cfg.key now) now = r
  obtain ⟨found, window⟩ := r
  rcases le_or_gt (cfg.L : ℚ) found with hspent | hleft
  · have hout := debitTransform_of_spent hr hspent tokens
    rw [if_pos hspent, hout, Entries.applySync_of_not_persist (by rw [hout])]
    have hpending := eq_some_of_rolled_pos hr (lt_of_lt_of_le (by exact_mod_cast cfg.L_pos) hspent)
    refine ⟨rfl, fun hnone => ?_, fun st due hst => ⟨(h.same st due hst).1, ?_⟩⟩
    · rw [Entries.pending, hnone] at hpending
      cases hpending
    · rw [Entries.pending, hst, Option.bind_some] at hpending
      split at hpending
      · cases hpending
      · obtain rfl := Option.some.inj hpending
        rfl
  · have hout := debitTransform_of_left hr hleft tokens
    rw [if_neg (not_le.mpr hleft), hout, Entries.applySync_of_persist (by rw [hout]), hout]
    refine ⟨rfl, fun hnone => ?_, fun st due hst => ?_⟩
    · rw [Function.update_self] at hnone
      cases hnone
    · rw [Function.update_self] at hst
      obtain ⟨rfl, rfl⟩ := Prod.mk.inj (Option.some.inj hst)
      exact ⟨le_expiry _ _, rfl⟩

end ThrottleKit.DistributedBudget
