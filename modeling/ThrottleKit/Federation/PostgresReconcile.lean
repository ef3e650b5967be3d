import ThrottleKit.Federation.PostgresCoordinator
import ThrottleKit.Lib.WindowPage

/-!
# Transactions of Postgres one after the other

A lease and a reconcile that meet no other transaction, as functions of the row of their key. A
reconcile upserts the row of the current window as a lease does, so that it opens a window that no
lease has opened, and marks the window.

## Main definitions

* `leaseTx`, `reconcileTx` — the transactions
* `pageAt` — the page of a window

## Main results

* `exec_leaseTx` — a lease that meets no other transaction leaves what `leaseTx` does
* `leaseTx_page`, `reconcileTx_page` — both work on the page of the current window
-/

namespace ThrottleKit.PostgresCoordinator

open AlignedWindow WindowPage

/-- The transaction of a lease on the row of its key: the row it leaves and what it grants, `none`
when a statement fails and it is rolled back. -/
def leaseTx (cfg : Config) (stored : Option Row) (key : String) (tokens : ℚ) (nowMs : ℤ) :
    Option Row × Option ℤ :=
  match (upsert cfg stored ⟨key, tokens, nowMs, .begun⟩).bind (charge tokens) with
  | some (row, granted) => (some row, some granted)
  | none => (stored, none)

/-- The transaction of a reconcile on the row of its key: the row it leaves, `none` when a statement
fails and it is rolled back. -/
def reconcileTx (cfg : Config) (stored : Option Row) (key : String) (leftover windowStart : ℚ)
    (nowMs : ℤ) : Option Row × Option Unit :=
  -- a window that has rolled forfeits what is left of it
  if windowStart ≠ alignedStart cfg.windowMs nowMs then (stored, some ())
  else
    let left : Option Row := do
      let row ← upsert cfg stored ⟨key, leftover, nowMs, .begun⟩
      let marker ← toBigint windowStart
      if marker ∈ row.reconciledMarkers then return row
      let newBudget ← toBigint (min (cfg.budgetFor key) (row.budget + leftover))
      return ⟨newBudget, row.expiresAt, row.reconciledMarkers ++ [marker]⟩
    match left with
    | some row => (some row, some ())
    | none => (stored, none)

/-- `lease(key, tokens, expiresAt)`, one call at a time. -/
def lease (cfg : Config) (stored : Option Row) (key : String) (tokens : ℚ) (nowMs : ℤ) :
    Option Row × Option ℤ :=
  if tokens < 0 then (stored, none)
  else if tokens = 0 then (stored, some 0)
  else leaseTx cfg stored key tokens nowMs

/-- `reconcile(key, leftover, windowStart)`, one call at a time. -/
def reconcile (cfg : Config) (stored : Option Row) (key : String) (leftover windowStart : ℚ)
    (nowMs : ℤ) : Option Row × Option Unit :=
  if leftover < 0 then (stored, none)
  else if leftover = 0 then (stored, some ())
  else reconcileTx cfg stored key leftover windowStart nowMs

/-! ### A transaction by itself -/

/-- **A lease that meets no other transaction**: its statements, one after the other, leave the row
that `leaseTx` does. -/
theorem exec_leaseTx {cfg : Config} {s : Db} {t : ℕ} {key : String} {tokens : ℚ} {nowMs : ℤ}
    {row : Row} {granted : ℤ} (htx : s.txs t = none) (hlock : s.locks key = none)
    (htokens : 0 < tokens)
    (hleft : leaseTx cfg (s.rows key) key tokens nowMs = (some row, some granted)) :
    ∃ s', (step cfg).exec s [.lease t key tokens nowMs, .upsert t, .charge t, .commit t]
        = some (s', [.committed key (expiresAt cfg nowMs) granted (s.rows key) row]) ∧
      s'.rows = Function.update s.rows key (some row) := by
  obtain ⟨r, hr, heq⟩ : ∃ r, (upsert cfg (s.rows key) ⟨key, tokens, nowMs, .begun⟩).bind
      (charge tokens) = some r ∧ r = (row, granted) := by
    rw [leaseTx] at hleft
    split at hleft
    · rename_i r g hbind
      obtain ⟨hrow, hgranted⟩ := Prod.mk.inj hleft
      exact ⟨_, hbind, by rw [Option.some.inj hrow, Option.some.inj hgranted]⟩
    · cases (Prod.mk.inj hleft).2
  obtain ⟨row₀, hupsert, hcharge⟩ := Option.bind_eq_some_iff.mp hr
  rw [heq] at hcharge
  have hbegin : step cfg s (.lease t key tokens nowMs) = some (s.enter t key tokens nowMs, []) := by
    rw [step, beginLease, htx, if_neg (by simp), if_neg htokens.not_gt,
      if_neg (by simp [htokens.ne'])]
  let s₁ := s.enter t key tokens nowMs
  let s₂ := (s₁.setLock key (some t)).setTx t (some ⟨key, tokens, nowMs, .upserted row₀⟩)
  let s₃ := s₂.setTx t (some ⟨key, tokens, nowMs, .charged row granted⟩)
  have hlocked : step cfg s₁ (.upsert t) = some (s₂, []) := by
    simp [step, s₁, s₂, Db.enter, hlock, hupsert]
  have hcharged : step cfg s₂ (.charge t) = some (s₃, []) := by
    simp [step, s₂, s₃, Db.setTx, hcharge]
  have hcommitted : step cfg s₃ (.commit t) = some ((s₃.finish t key).setRow key row,
      [.committed key (expiresAt cfg nowMs) granted (s.rows key) row]) := by
    simp [step, s₃, s₂, s₁, Db.setTx, Db.setLock, Db.enter]
  refine ⟨(s₃.finish t key).setRow key row, ?_, rfl⟩
  rw [Machine.exec, hbegin, Option.bind_some, Machine.exec, hlocked, Option.bind_some,
    Machine.exec, hcharged, Option.bind_some, Machine.exec, hcommitted]
  rfl

/-! ### Pages -/

/-- What a row keeps, as the page of the window that starts at `windowStart`. -/
def Row.page (windowStart : ℚ) (row : Row) : Page ℚ :=
  ⟨row.budget, row.reconciledMarkers.any fun m => (m : ℚ) = windowStart⟩

/-- The page of the window that starts at `windowStart`. -/
def pageAt (cfg : Config) (windowStart : ℚ) (stored : Option Row) : Option (Page ℚ) :=
  (stored.filter fun row => (row.expiresAt : ℚ) = windowStart + cfg.windowMs).map
    (Row.page windowStart)

variable {cfg : Config} {stored : Option Row} {row : Row} {key : String} {tokens leftover : ℚ}
  {nowMs : ℤ} {windowStart : ℚ}

theorem pageAt_of_eq (h : (row.expiresAt : ℚ) = windowStart + cfg.windowMs) :
    pageAt cfg windowStart (some row) = some (row.page windowStart) := by
  rw [pageAt, Option.filter_some, if_pos (decide_eq_true h)]
  rfl

theorem pageAt_of_ne (h : (row.expiresAt : ℚ) ≠ windowStart + cfg.windowMs) :
    pageAt cfg windowStart (some row) = none := by
  rw [pageAt, Option.filter_some, if_neg (by simpa using h)]
  rfl

/-- A whole number. -/
def Whole (x : ℚ) : Prop := (⌊x⌋ : ℚ) = x

instance (x : ℚ) : Decidable (Whole x) := inferInstanceAs (Decidable (_ = _))

theorem toBigint_of_whole {x : ℚ} (h : Whole x) : toBigint x = some ⌊x⌋ := if_pos h

theorem whole_intCast (n : ℤ) : Whole (n : ℚ) := by rw [Whole, Int.floor_intCast]

theorem whole_natCast (n : ℕ) : Whole (n : ℚ) := by exact_mod_cast whole_intCast n

theorem Whole.min {x y : ℚ} (hx : Whole x) (hy : Whole y) : Whole (min x y) := by
  rcases min_choice x y with h | h
  · rwa [h]
  · rwa [h]

theorem Whole.add {x y : ℚ} (hx : Whole x) (hy : Whole y) : Whole (x + y) := by
  rw [← hx, ← hy, ← Int.cast_add]
  exact whole_intCast _

/-- The upsert of a transaction finds the page of the current window, or opens it. -/
theorem upsert_page (hbudget : Whole (cfg.budgetFor key)) (hend : Whole (expiresAt cfg nowMs))
    (stored : Option Row) (tokens : ℚ) :
    ∃ row, upsert cfg stored ⟨key, tokens, nowMs, .begun⟩ = some row ∧
      (row.expiresAt : ℚ) = expiresAt cfg nowMs ∧ row.page (alignedStart cfg.windowMs nowMs)
        = opened (cfg.budgetFor key) (pageAt cfg (alignedStart cfg.windowMs nowMs) stored) := by
  refine ⟨upsertRow stored ⌊cfg.budgetFor key⌋ ⌊expiresAt cfg nowMs⌋, ?_, ?_⟩
  · rw [upsert, toBigint_of_whole hbudget, toBigint_of_whole hend]
    rfl
  have hfresh : (⟨⌊cfg.budgetFor key⌋, ⌊expiresAt cfg nowMs⌋, []⟩ : Row).page
      (alignedStart cfg.windowMs nowMs) = opened (cfg.budgetFor key) none := by
    rw [Row.page, hbudget]
    rfl
  rw [upsertRow.eq_def]
  cases stored with
  | none => exact ⟨hend, hfresh⟩
  | some row =>
    dsimp only
    by_cases hsame : row.expiresAt = ⌊expiresAt cfg nowMs⌋
    · have hcurrent : (row.expiresAt : ℚ) = expiresAt cfg nowMs := by rw [hsame, hend]
      rw [if_neg (not_not.mpr hsame), pageAt_of_eq hcurrent]
      exact ⟨hcurrent, rfl⟩
    · have hstale : (row.expiresAt : ℚ) ≠ expiresAt cfg nowMs := by
        rw [← hend]
        exact_mod_cast hsame
      rw [if_pos hsame, pageAt_of_ne hstale]
      exact ⟨hend, hfresh⟩

/-- **A lease takes from the page of the current window.** -/
theorem leaseTx_page (hbudget : Whole (cfg.budgetFor key)) (hend : Whole (expiresAt cfg nowMs))
    (htokens : Whole tokens) (hpos : 0 < tokens)
    (hwithin : ∀ page ∈ pageAt cfg (alignedStart cfg.windowMs nowMs) stored,
      page.Within (cfg.budgetFor key)) :
    ∃ row granted, leaseTx cfg stored key tokens nowMs = (some row, some granted) ∧
      (granted : ℚ) = (take (cfg.budgetFor key) tokens
        (pageAt cfg (alignedStart cfg.windowMs nowMs) stored)).2 ∧
      (row.expiresAt : ℚ) = expiresAt cfg nowMs ∧ row.page (alignedStart cfg.windowMs nowMs)
        = (take (cfg.budgetFor key) tokens
          (pageAt cfg (alignedStart cfg.windowMs nowMs) stored)).1 := by
  obtain ⟨row, hupsert, hexpires, hpage⟩ := upsert_page hbudget hend stored tokens
  have hopened := within_opened (zero_le_one.trans (cfg.one_le_budget key)) hwithin
  rw [← hpage] at hopened
  have hmin : Whole (min tokens row.budget) := htokens.min (whole_intCast row.budget)
  rw [leaseTx, hupsert, Option.bind_some, take, ← hpage, charge]
  by_cases hsome : 0 < min tokens (row.budget : ℚ)
  · rw [if_pos hsome, toBigint_of_whole hmin]
    refine ⟨_, _, rfl, hmin, hexpires, ?_⟩
    show (⟨((row.budget - ⌊min tokens (row.budget : ℚ)⌋ : ℤ) : ℚ), _⟩ : Page ℚ) = _
    rw [Int.cast_sub, hmin]
    rfl
  · have hzero : min tokens (row.budget : ℚ) = 0 :=
      le_antisymm (not_lt.mp hsome) (le_min hpos.le hopened.nonneg)
    rw [if_neg hsome]
    refine ⟨_, _, rfl, ?_, hexpires, ?_⟩
    · show ((0 : ℤ) : ℚ) = min tokens (row.budget : ℚ)
      rw [hzero, Int.cast_zero]
    · show row.page _ = ⟨(row.budget : ℚ) - min tokens (row.budget : ℚ), _⟩
      rw [hzero, sub_zero]
      rfl

/-- **A reconcile of the current window gives back to its page**, which it opens. -/
theorem reconcileTx_page (hbudget : Whole (cfg.budgetFor key)) (hend : Whole (expiresAt cfg nowMs))
    (hstart : Whole (alignedStart cfg.windowMs nowMs)) (hleftover : Whole leftover)
    (stored : Option Row) :
    ∃ row, reconcileTx cfg stored key leftover (alignedStart cfg.windowMs nowMs) nowMs
        = (some row, some ()) ∧
      (row.expiresAt : ℚ) = expiresAt cfg nowMs ∧
      some (row.page (alignedStart cfg.windowMs nowMs))
        = giveBackOpening (cfg.budgetFor key) leftover
        (pageAt cfg (alignedStart cfg.windowMs nowMs) stored) := by
  obtain ⟨row, hupsert, hexpires, hpage⟩ := upsert_page hbudget hend stored leftover
  have hmin : Whole (min (cfg.budgetFor key) (row.budget + leftover)) :=
    hbudget.min ((whole_intCast row.budget).add hleftover)
  have hmarker : (⌊alignedStart cfg.windowMs (nowMs : ℚ)⌋ : ℚ) = alignedStart cfg.windowMs nowMs :=
    hstart
  have hmarked : (row.page (alignedStart cfg.windowMs nowMs)).credited = true
      ↔ ⌊alignedStart cfg.windowMs (nowMs : ℚ)⌋ ∈ row.reconciledMarkers := by
    rw [Row.page, List.any_eq_true]
    constructor
    · rintro ⟨m, hm, heq⟩
      rw [decide_eq_true_eq, ← hmarker] at heq
      rwa [← Int.cast_injective heq]
    · intro hm
      exact ⟨_, hm, decide_eq_true hmarker⟩
  rw [reconcileTx, if_neg (not_not.mpr rfl), hupsert, toBigint_of_whole hstart, giveBackOpening,
    ← hpage, Page.credit]
  dsimp only [Option.bind_eq_bind, Option.bind_some]
  by_cases hmem : ⌊alignedStart cfg.windowMs (nowMs : ℚ)⌋ ∈ row.reconciledMarkers
  · rw [if_pos hmem, if_pos (hmarked.mpr hmem)]
    exact ⟨row, rfl, hexpires, rfl⟩
  · rw [if_neg hmem, if_neg fun h => hmem (hmarked.mp h), toBigint_of_whole hmin]
    refine ⟨_, rfl, hexpires, ?_⟩
    rw [Row.page]
    dsimp only
    rw [hmin, List.any_append, List.any_cons, decide_eq_true hmarker, Bool.true_or, Bool.or_true]
    rfl

end ThrottleKit.PostgresCoordinator
