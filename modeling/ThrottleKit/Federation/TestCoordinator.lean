import Mathlib.Algebra.Field.Rat
import Mathlib.Algebra.Order.Ring.Rat
import Mathlib.Data.Rat.Init
import ThrottleKit.Core.Types
import ThrottleKit.Lib.AlignedWindow
import ThrottleKit.Lib.WindowPage

/-!
# The coordinator for tests

The coordinator in memory keeps one window for a key and does not read a clock: a lease names the
end of its window, and a window with another end replaces the one there was.

## Main definitions

* `Coordinator`, `lease`, `reconcile` — the coordinator
* `pageAt` — the page of a window

## Main results

* `lease_page` — a lease takes from the page of its window
* `reconcile_page` — leftovers go back to a page that is open
-/

namespace ThrottleKit.TestCoordinator

open AlignedWindow WindowPage

/-- One window's state. -/
structure WindowState where
  expiresAt : ℚ
  budgetRemaining : ℚ
  /-- The window starts already reconciled. -/
  reconciledWindowStarts : List ℚ

/-- A `TestCoordinator`, with its budgets. -/
structure Coordinator where
  healthy : Bool
  /-- `#budgetFor(key)`. -/
  budgetFor : String → ℚ
  windowMs : Option ℚ
  windows : String → Option WindowState

/-- How a call throws. -/
inductive CallError
  | partitioned (call key : String)
  | badTokens (tokens : ℚ)
  | badLeftover (leftover : ℚ)

/-- The message of the thrown error. -/
def CallError.message : CallError → String
  | .partitioned call key => "TestCoordinator partitioned (" ++ call ++ " \"" ++ key ++ "\")"
  | .badTokens tokens =>
    "lease tokens must be a non-negative finite number, got " ++ toString tokens
  | .badLeftover leftover => "reconcile leftover must be non-negative, got " ++ toString leftover

/-- A fresh window. -/
def Coordinator.fresh (c : Coordinator) (key : String) (expiresAt : ℚ) : WindowState :=
  ⟨expiresAt, c.budgetFor key, []⟩

/-- `#windowFor(key, expiresAt)`. -/
def Coordinator.windowFor (c : Coordinator) (key : String) (expiresAt : ℚ) : WindowState :=
  match c.windows key with
  | some existing => if existing.expiresAt = expiresAt then existing else c.fresh key expiresAt
  | none => c.fresh key expiresAt

/-- Write the window of a key. -/
def Coordinator.setWindow (c : Coordinator) (key : String) (w : WindowState) : Coordinator :=
  { c with windows := Function.update c.windows key (some w) }

/-- `lease(key, tokens, expiresAt)`. -/
def lease (c : Coordinator) (key : String) (tokens expiresAt : ℚ) :
    Coordinator × Except CallError ℚ :=
  if c.healthy = false then (c, .error (.partitioned "lease" key))
  else if tokens < 0 then (c, .error (.badTokens tokens))
  else if tokens = 0 then (c, .ok 0)
  else
    let state := c.windowFor key expiresAt
    let granted := min tokens state.budgetRemaining
    (c.setWindow key { state with budgetRemaining := state.budgetRemaining - granted }, .ok granted)

/-- `reconcile(key, leftover, windowStart)`. -/
def reconcile (c : Coordinator) (key : String) (leftover windowStart : ℚ) :
    Coordinator × Except CallError Unit :=
  if c.healthy = false then (c, .error (.partitioned "reconcile" key))
  else if leftover < 0 then (c, .error (.badLeftover leftover))
  else
    match c.windows key with
    | none => (c, .ok ())
    | some state =>
      -- a window that has rolled forfeits what is left of it
      if c.windowMs.any fun windowMs => windowStart ≠ state.expiresAt - windowMs then (c, .ok ())
      else if windowStart ∈ state.reconciledWindowStarts then (c, .ok ())
      else
        (c.setWindow key ⟨state.expiresAt, min (state.budgetRemaining + leftover) (c.budgetFor key),
          state.reconciledWindowStarts ++ [windowStart]⟩, .ok ())

/-! ### Pages -/

/-- What a window keeps, as the page of the one that starts at `windowStart`. -/
def WindowState.page (windowStart : ℚ) (w : WindowState) : Page ℚ :=
  ⟨w.budgetRemaining, decide (windowStart ∈ w.reconciledWindowStarts)⟩

/-- The page of the window that starts at `windowStart`. -/
def pageAt (windowMs windowStart : ℚ) (w : Option WindowState) : Option (Page ℚ) :=
  (w.filter fun w => w.expiresAt = windowStart + windowMs).map (WindowState.page windowStart)

variable {c : Coordinator} {key : String} {windowMs windowStart tokens leftover : ℚ}
  {w : WindowState}

theorem pageAt_of_eq (h : w.expiresAt = windowStart + windowMs) :
    pageAt windowMs windowStart (some w) = some (w.page windowStart) := by
  rw [pageAt, Option.filter_some, if_pos (decide_eq_true h)]
  rfl

theorem pageAt_of_ne (h : w.expiresAt ≠ windowStart + windowMs) :
    pageAt windowMs windowStart (some w) = none := by
  rw [pageAt, Option.filter_some, if_neg (by simpa using h)]
  rfl

theorem windowFor_page (c : Coordinator) (key : String) (windowMs windowStart : ℚ) :
    (c.windowFor key (windowStart + windowMs)).expiresAt = windowStart + windowMs ∧
      (c.windowFor key (windowStart + windowMs)).page windowStart
        = opened (c.budgetFor key) (pageAt windowMs windowStart (c.windows key)) := by
  rw [Coordinator.windowFor]
  cases c.windows key with
  | none => exact ⟨rfl, rfl⟩
  | some existing =>
    dsimp only
    by_cases hsame : existing.expiresAt = windowStart + windowMs
    · rw [if_pos hsame, pageAt_of_eq hsame]
      exact ⟨hsame, rfl⟩
    · rw [if_neg hsame, pageAt_of_ne hsame]
      exact ⟨rfl, rfl⟩

/-- **A lease takes from the page of its window.** -/
theorem lease_page (hhealthy : c.healthy = true) (htokens : 0 < tokens) :
    (lease c key tokens (windowStart + windowMs)).2.toOption
        = some (take (c.budgetFor key) tokens (pageAt windowMs windowStart (c.windows key))).2 ∧
      ∃ w, (lease c key tokens (windowStart + windowMs)).1 = c.setWindow key w ∧
        w.expiresAt = windowStart + windowMs ∧ w.page windowStart
          = (take (c.budgetFor key) tokens (pageAt windowMs windowStart (c.windows key))).1 := by
  obtain ⟨hexpires, hpage⟩ := windowFor_page c key windowMs windowStart
  rw [lease, if_neg (by simp [hhealthy]), if_neg htokens.not_gt, if_neg htokens.ne', take, ← hpage]
  exact ⟨rfl, _, rfl, hexpires, rfl⟩

/-- A reconcile goes through, and leaves the window, or one with the same end. -/
theorem reconcile_frame (c : Coordinator) (hhealthy : c.healthy = true) (key : String)
    (hleftover : 0 ≤ leftover) (windowStart : ℚ) :
    (reconcile c key leftover windowStart).2.toOption = some () ∧
      ((reconcile c key leftover windowStart).1 = c ∨ ∃ state w, c.windows key = some state ∧
        (reconcile c key leftover windowStart).1 = c.setWindow key w ∧
        w.expiresAt = state.expiresAt ∧
        ∀ windowMs, c.windowMs = some windowMs → windowStart = state.expiresAt - windowMs) := by
  rw [reconcile, if_neg (by simp [hhealthy]), if_neg hleftover.not_gt]
  cases hstate : c.windows key with
  | none => exact ⟨rfl, .inl rfl⟩
  | some state =>
    dsimp only
    split
    · exact ⟨rfl, .inl rfl⟩
    · rename_i hcurrent
      split
      · exact ⟨rfl, .inl rfl⟩
      · refine ⟨rfl, .inr ⟨state, _, rfl, rfl, rfl, fun windowMs hwindowMs => ?_⟩⟩
        rw [hwindowMs, Option.any_some] at hcurrent
        simpa using hcurrent

/-- **Leftovers of a window go back to its page, if it is open.** -/
theorem reconcile_page (hhealthy : c.healthy = true) (hwindowMs : c.windowMs = some windowMs)
    (hleftover : 0 ≤ leftover) :
    pageAt windowMs windowStart ((reconcile c key leftover windowStart).1.windows key)
      = giveBack (c.budgetFor key) leftover (pageAt windowMs windowStart (c.windows key)) := by
  rw [reconcile, if_neg (by simp [hhealthy]), if_neg hleftover.not_gt]
  cases hstate : c.windows key with
  | none =>
    dsimp only
    rw [hstate]
    rfl
  | some state =>
    dsimp only
    rw [hwindowMs, Option.any_some]
    by_cases hsame : state.expiresAt = windowStart + windowMs
    · rw [if_neg (by simp [hsame]), pageAt_of_eq hsame]
      by_cases hmarked : windowStart ∈ state.reconciledWindowStarts
      · have hcredited : (state.page windowStart).credited = true := decide_eq_true hmarked
        rw [if_pos hmarked, hstate, pageAt_of_eq hsame, giveBack, Option.map_some, Page.credit,
          if_pos hcredited]
      · have hopen : (state.page windowStart).credited = false := decide_eq_false hmarked
        have hmarks : windowStart ∈ state.reconciledWindowStarts ++ [windowStart] :=
          List.mem_append_right _ List.mem_cons_self
        have hnew : pageAt windowMs windowStart (some ⟨state.expiresAt,
            min (state.budgetRemaining + leftover) (c.budgetFor key),
            state.reconciledWindowStarts ++ [windowStart]⟩)
              = some ⟨min (c.budgetFor key) (state.budgetRemaining + leftover), true⟩ := by
          rw [pageAt, Option.filter_some, if_pos (decide_eq_true hsame), Option.map_some,
            WindowState.page, decide_eq_true hmarks, min_comm]
        rw [if_neg hmarked]
        dsimp only [Coordinator.setWindow]
        rw [Function.update_self, hnew, giveBack, Option.map_some, Page.credit, hopen]
        rfl
    · have hother : windowStart ≠ state.expiresAt - windowMs := by
        intro heq
        exact hsame (by rw [heq, sub_add_cancel])
      rw [if_pos (by simpa using hother), hstate, pageAt_of_ne hsame]
      rfl

/-- Leftovers of a window leave the pages of all others. -/
theorem reconcile_page_of_ne {other : ℚ} (hhealthy : c.healthy = true)
    (hwindowMs : c.windowMs = some windowMs) (hleftover : 0 ≤ leftover)
    (hne : other ≠ windowStart) :
    pageAt windowMs windowStart ((reconcile c key leftover other).1.windows key)
      = pageAt windowMs windowStart (c.windows key) := by
  obtain ⟨-, hsame | ⟨state, w, hstate, hset, hexpires, hother⟩⟩ :=
    reconcile_frame c hhealthy key hleftover other
  · rw [hsame]
  · have hstale : state.expiresAt ≠ windowStart + windowMs := by
      intro heq
      exact hne (by rw [hother windowMs hwindowMs, heq, add_sub_cancel_right])
    rw [hset, Coordinator.setWindow]
    dsimp only
    rw [Function.update_self, hstate, pageAt_of_ne hstale,
      pageAt_of_ne (by rw [hexpires]; exact hstale)]

end ThrottleKit.TestCoordinator
