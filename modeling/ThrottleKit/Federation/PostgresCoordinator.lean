import ThrottleKit.Core.Types
import ThrottleKit.Lib.AlignedWindow
import ThrottleKit.Lib.Machine

/-!
# Leasing from Postgres

A lease is a transaction: it reads the clock, upserts the row of its key for the window of its
reading, takes what it can of the row's budget, and commits. The upsert locks the row until the end
of the transaction, so the transactions of a key follow one another from their upserts on; the clock
is read before the lock is acquired, so they may not follow one another in the order of their
readings.

The upsert rolls the row whenever its window is another than that of the transaction, a later one
included. A transaction that read the clock before the end of a window and got the lock after the
row rolled puts the earlier window back with a full budget, and the next lease does the same for the
later one.

## Main definitions

* `Row`, `Tx`, `Db` — the data
* `upsert`, `charge` — the two statements of a lease
* `Act`, `Event`, `step` — transactions in any interleaving
* `RollsForward` — no transaction commits an earlier window over a later one

## Main results

* `granted_le_budget` — where every commit rolls forward, no window grants more than its budget
* `late_lock_overspends` — without that it fails
-/

namespace ThrottleKit.PostgresCoordinator

open AlignedWindow

/-- The options of a `PostgresCoordinator`, validated, with its budgets. -/
structure Config where
  windowMs : ℚ
  /-- `budgetFor(key)`. -/
  budgetFor : String → ℚ
  one_le_windowMs : 1 ≤ windowMs
  one_le_budget : ∀ key, 1 ≤ budgetFor key

/-- A row of the table, but for its `updated_at`, which leases do not read. -/
structure Row where
  budget : ℤ
  expiresAt : ℤ
  reconciledMarkers : List ℤ
deriving DecidableEq

/-- How far a transaction has come. -/
inductive Stage
  /-- It has read the clock. -/
  | begun
  /-- It holds the lock, and will leave `row` if it grants nothing. -/
  | upserted (row : Row)
  /-- It has taken `granted`, and will leave `row`. -/
  | charged (row : Row) (granted : ℤ)

/-- The transaction of one lease. -/
structure Tx where
  key : String
  tokens : ℚ
  /-- Its reading of the clock. -/
  nowMs : ℤ
  stage : Stage

/-- The table and the transactions under way. -/
structure Db where
  /-- The committed rows. -/
  rows : String → Option Row
  /-- The transaction that holds the lock of a row. -/
  locks : String → Option ℕ
  txs : ℕ → Option Tx
  /-- Ghost: the latest reading of the clock. -/
  clock : ℤ

/-- An empty table. -/
def Db.new : Db := ⟨fun _ => none, fun _ => none, fun _ => none, 0⟩

/-- A number as a `BIGINT` parameter; `none` when the server refuses it. -/
def toBigint (x : ℚ) : Option ℤ := if (⌊x⌋ : ℚ) = x then some ⌊x⌋ else none

/-- `expiresAt` of the window a transaction was begun in. -/
def expiresAt (cfg : Config) (nowMs : ℤ) : ℚ := alignedStart cfg.windowMs nowMs + cfg.windowMs

/-- The row an upsert leaves: a row of another window starts anew. -/
def upsertRow (stored : Option Row) (budget expiresAt : ℤ) : Row :=
  match stored with
  | some row => if row.expiresAt ≠ expiresAt then ⟨budget, expiresAt, []⟩ else row
  | none => ⟨budget, expiresAt, []⟩

/-- The upsert of a transaction on the committed row of its key. -/
def upsert (cfg : Config) (stored : Option Row) (tx : Tx) : Option Row :=
  (toBigint (cfg.budgetFor tx.key)).bind fun budget =>
    (toBigint (expiresAt cfg tx.nowMs)).map fun expiresAt => upsertRow stored budget expiresAt

/-- The rest of a transaction up to its commit: the row it leaves and what it grants. -/
def charge (tokens : ℚ) (row : Row) : Option (Row × ℤ) :=
  if 0 < min tokens row.budget then
    (toBigint (min tokens row.budget)).map fun granted =>
      ({ row with budget := row.budget - granted }, granted)
  else some (row, 0)

/-- What can happen. A transaction number names one transaction. -/
inductive Act
  /-- `lease(key, tokens)` begins its transaction and reads the clock. -/
  | lease (tx : ℕ) (key : String) (tokens : ℚ) (nowMs : ℤ)
  /-- `leaseWindowed(key, tokens)` does. -/
  | leaseWindowed (tx : ℕ) (key : String) (tokens : ℚ) (nowMs : ℤ)
  | upsert (tx : ℕ)
  | charge (tx : ℕ)
  | commit (tx : ℕ)
  /-- A connection is lost or a statement times out. -/
  | rollback (tx : ℕ)

/-- How a lease throws. -/
inductive LeaseError
  | badTokens (tokens : ℚ)
  | unavailable (key : String)

/-- The message of the thrown error, up to the server's own. -/
def LeaseError.message : LeaseError → String
  | .badTokens tokens =>
    "lease tokens must be a non-negative finite number, got " ++ toString tokens
  | .unavailable key => "PostgresCoordinator.lease failed for key \"" ++ key ++ "\": "

/-- What a step makes visible. -/
inductive Event
  /-- A lease of the window ending at `expiresAt` was committed over `before`. -/
  | committed (key : String) (expiresAt : ℚ) (granted : ℤ) (before : Option Row) (after : Row)
  | threw (error : LeaseError)

namespace Db

/-- Transaction `t` has moved on. -/
def setTx (s : Db) (t : ℕ) (tx : Option Tx) : Db := { s with txs := Function.update s.txs t tx }

/-- The lock of `key` passes to `holder`. -/
def setLock (s : Db) (key : String) (holder : Option ℕ) : Db :=
  { s with locks := Function.update s.locks key holder }

/-- `row` is the committed row of `key`. -/
def setRow (s : Db) (key : String) (row : Row) : Db :=
  { s with rows := Function.update s.rows key (some row) }

/-- Transaction `t` is over; a lock it holds is free. -/
def finish (s : Db) (t : ℕ) (key : String) : Db :=
  (s.setTx t none).setLock key (if s.locks key = some t then none else s.locks key)

/-- Transaction `t` has begun at a reading of the clock. -/
def enter (s : Db) (t : ℕ) (key : String) (tokens : ℚ) (nowMs : ℤ) : Db :=
  { s with txs := Function.update s.txs t (some ⟨key, tokens, nowMs, .begun⟩), clock := nowMs }

end Db

/-- `lease` and `leaseWindowed` up to the reading of the clock. -/
def beginLease (s : Db) (t : ℕ) (key : String) (tokens : ℚ) (nowMs : ℤ) (windowed : Bool) :
    Option (Db × List Event) :=
  if (s.txs t).isSome then none
  else if tokens < 0 then some (s, [.threw (.badTokens tokens)])
  else if tokens = 0 ∧ windowed = false then some (s, [])
  else some (s.enter t key tokens nowMs, [])

/-- A transaction fails and is rolled back. -/
def abort (s : Db) (t : ℕ) (tx : Tx) : Db × List Event :=
  (s.finish t tx.key, [.threw (.unavailable tx.key)])

/-- One action. An upsert waits while another transaction holds the lock. -/
def step (cfg : Config) : Machine Db Act Event := fun s a =>
  match a with
  | .lease t key tokens nowMs => beginLease s t key tokens nowMs false
  | .leaseWindowed t key tokens nowMs => beginLease s t key tokens nowMs true
  | .upsert t => (s.txs t).bind fun tx =>
    match tx.stage with
    | .begun =>
      if (s.locks tx.key).isSome then none
      else match upsert cfg (s.rows tx.key) tx with
        | some row => some ((s.setLock tx.key (some t)).setTx t
            (some { tx with stage := .upserted row }), [])
        | none => some (abort s t tx)
    | _ => none
  | .charge t => (s.txs t).bind fun tx =>
    match tx.stage with
    | .upserted row =>
      match charge tx.tokens row with
      | some r => some (s.setTx t (some { tx with stage := .charged r.1 r.2 }), [])
      | none => some (abort s t tx)
    | _ => none
  | .commit t => (s.txs t).bind fun tx =>
    match tx.stage with
    | .charged row granted => some ((s.finish t tx.key).setRow tx.key row,
        [.committed tx.key (expiresAt cfg tx.nowMs) granted (s.rows tx.key) row])
    | _ => none
  | .rollback t => (s.txs t).map fun tx => abort s t tx

/-- The clock does not go back. -/
def InOrder (s : Db) : Act → Prop
  | .lease _ _ _ nowMs | .leaseWindowed _ _ _ nowMs => s.clock ≤ nowMs
  | _ => True

instance (s : Db) : ∀ a, Decidable (InOrder s a)
  | .lease _ _ _ _ | .leaseWindowed _ _ _ _ => inferInstanceAs (Decidable (_ ≤ _))
  | .upsert _ | .charge _ | .commit _ | .rollback _ => isTrue trivial

/-- A transaction that is about to commit an earlier window over a later one. -/
def rollsBack (cfg : Config) (s : Db) : Act → Bool
  | .commit t =>
    match s.txs t with
    | some tx => (s.rows tx.key).any fun row => expiresAt cfg tx.nowMs < row.expiresAt
    | none => false
  | _ => false

/-- **The condition.** No transaction commits an earlier window over a later one. -/
def RollsForward (cfg : Config) (s : Db) (a : Act) : Prop := rollsBack cfg s a = false

instance (cfg : Config) (s : Db) (a : Act) : Decidable (RollsForward cfg s a) :=
  inferInstanceAs (Decidable (_ = _))

/-- What an event grants for a window of a key. -/
def grantedFor (key : String) (w : ℚ) : Event → ℚ
  | .committed k expiresAt granted _ _ => if k = key ∧ expiresAt = w then granted else 0
  | .threw _ => 0

/-- What was granted for a window of a key. -/
def totalGranted (key : String) (w : ℚ) (log : List Event) : ℚ := (log.map (grantedFor key w)).sum

/-- A transaction of an earlier window than the stored one leaves the stored window and budget. -/
def Event.KeepsLater : Event → Prop
  | .committed _ expiresAt _ before after => ∀ row ∈ before, expiresAt < row.expiresAt →
      after.expiresAt = row.expiresAt ∧ after.budget = row.budget
  | .threw _ => True

/-! ### The statements -/

variable {cfg : Config} {s s' : Db} {log new : List Event} {key : String} {tx : Tx} {t : ℕ}
  {row row' : Row} {w : ℚ}

theorem totalGranted_append (key : String) (w : ℚ) (l l' : List Event) :
    totalGranted key w (l ++ l') = totalGranted key w l + totalGranted key w l' := by
  simp [totalGranted]

theorem eq_of_toBigint {x : ℚ} {n : ℤ} (h : toBigint x = some n) : (n : ℚ) = x := by
  unfold toBigint at h
  split at h
  · rename_i hwhole
    obtain rfl := Option.some.inj h
    exact hwhole
  · cases h

/-- The row of a key against what was granted. -/
structure Accounts (cfg : Config) (log : List Event) (key : String) (row : Row) : Prop where
  nonneg : 0 ≤ row.budget
  budget : (row.budget : ℚ) = cfg.budgetFor key - totalGranted key row.expiresAt log
  later : ∀ w : ℚ, row.expiresAt < w → totalGranted key w log = 0

/-- An upsert that does not put an earlier window back accounts for its window. -/
theorem accounts_upsert (hrow : upsert cfg (s.rows tx.key) tx = some row)
    (hunwritten : s.rows tx.key = none → ∀ w, totalGranted tx.key w log = 0)
    (hwritten : ∀ stored ∈ s.rows tx.key, Accounts cfg log tx.key stored)
    (hforward : ∀ stored ∈ s.rows tx.key, (stored.expiresAt : ℚ) ≤ expiresAt cfg tx.nowMs) :
    (row.expiresAt : ℚ) = expiresAt cfg tx.nowMs ∧ Accounts cfg log tx.key row := by
  obtain ⟨budget, hbudget, hmap⟩ := Option.bind_eq_some_iff.mp hrow
  obtain ⟨e, he, rfl⟩ := Option.map_eq_some_iff.mp hmap
  have hb := eq_of_toBigint hbudget
  have hexpires := eq_of_toBigint he
  have hnonneg : 0 ≤ budget := by
    have hone := cfg.one_le_budget tx.key
    rw [← hb] at hone
    exact zero_le_one.trans (by exact_mod_cast hone)
  -- a new row, or one of an earlier window: nothing was granted from here on
  have hfresh (h : ∀ w : ℚ, (e : ℚ) ≤ w → totalGranted tx.key w log = 0) :
      Accounts cfg log tx.key ⟨budget, e, []⟩ :=
    ⟨hnonneg, by rw [h _ le_rfl, sub_zero, hb], fun w hlt => h w hlt.le⟩
  unfold upsertRow
  cases hstored : s.rows tx.key with
  | none => exact ⟨hexpires, hfresh fun w _ => hunwritten hstored w⟩
  | some stored =>
    dsimp only
    have haccounts := hwritten stored hstored
    split
    · rename_i hne
      have hle : (stored.expiresAt : ℚ) ≤ e := hexpires ▸ hforward stored hstored
      have hlt : (stored.expiresAt : ℚ) < e := lt_of_le_of_ne hle (by exact_mod_cast hne)
      exact ⟨hexpires, hfresh fun w hw => haccounts.later w (hlt.trans_le hw)⟩
    · rename_i heq
      rw [not_not.mp heq]
      exact ⟨hexpires, haccounts⟩

/-- What a transaction grants is taken from the row. -/
theorem charge_spec {tokens : ℚ} {granted : ℤ} (hnonneg : 0 ≤ row.budget)
    (h : charge tokens row = some (row', granted)) :
    0 ≤ granted ∧ granted ≤ row.budget ∧ row'.budget = row.budget - granted ∧
      row'.expiresAt = row.expiresAt := by
  unfold charge at h
  split at h
  · rename_i hpos
    obtain ⟨n, hn, heq⟩ := Option.map_eq_some_iff.mp h
    obtain ⟨rfl, rfl⟩ := Prod.mk.inj heq
    have hn' := eq_of_toBigint hn
    refine ⟨?_, ?_, rfl, rfl⟩
    · rw [← hn'] at hpos
      exact_mod_cast hpos.le
    · have hle := min_le_right tokens (row.budget : ℚ)
      rw [← hn'] at hle
      exact_mod_cast hle
  · obtain ⟨rfl, rfl⟩ := Prod.mk.inj (Option.some.inj h)
    exact ⟨le_rfl, hnonneg, by simp, rfl⟩

/-! ### What holds after any steps -/

/-- What a transaction that holds a lock will leave comes from the row as it is committed. -/
def Pending (cfg : Config) (s : Db) (t : ℕ) (tx : Tx) : Prop :=
  match tx.stage with
  | .begun => True
  | .upserted row => s.locks tx.key = some t ∧ upsert cfg (s.rows tx.key) tx = some row
  | .charged row granted => s.locks tx.key = some t ∧
      ∃ row₀, upsert cfg (s.rows tx.key) tx = some row₀ ∧
        charge tx.tokens row₀ = some (row, granted)

/-- The invariant. -/
structure Inv (cfg : Config) (s : Db) (log : List Event) : Prop where
  granted_le : ∀ key w, totalGranted key w log ≤ cfg.budgetFor key
  unwritten : ∀ key, s.rows key = none → ∀ w, totalGranted key w log = 0
  written : ∀ key, ∀ row ∈ s.rows key, Accounts cfg log key row
  pending : ∀ t tx, s.txs t = some tx → Pending cfg s t tx
  keepsLater : ∀ e ∈ log, e.KeepsLater

/-- The other transactions do not notice a step that leaves rows and their locks alone. -/
theorem Pending.frame (h : Pending cfg s t tx) (hrows : s'.rows = s.rows)
    (hlocks : s.locks tx.key = some t → s'.locks tx.key = some t) : Pending cfg s' t tx := by
  unfold Pending at h ⊢
  rw [hrows]
  split
  · trivial
  · rename_i row hstage
    rw [hstage] at h
    exact ⟨hlocks h.1, h.2⟩
  · rename_i row granted hstage
    rw [hstage] at h
    exact ⟨hlocks h.1, h.2⟩

/-- A step that grants nothing, and leaves the rows. -/
theorem Inv.quiet (h : Inv cfg s log) (hrows : s'.rows = s.rows)
    (hpending : ∀ t tx, s'.txs t = some tx → Pending cfg s' t tx)
    (hnew : ∀ e ∈ new, ∃ err, e = .threw err) : Inv cfg s' (log ++ new) := by
  have htotal : ∀ key w, totalGranted key w (log ++ new) = totalGranted key w log := by
    intro key w
    rw [totalGranted_append, add_eq_left]
    refine List.sum_eq_zero fun x hx => ?_
    obtain ⟨e, he, rfl⟩ := List.mem_map.mp hx
    obtain ⟨err, rfl⟩ := hnew e he
    rfl
  refine ⟨fun key w => htotal key w ▸ h.granted_le key w, fun key hnone w => ?_,
    fun key row hrow => ?_, hpending, fun e he => ?_⟩
  · rw [htotal]
    exact h.unwritten key (hrows ▸ hnone) w
  · obtain ⟨hnonneg, hbudget, hlater⟩ := h.written key row (hrows ▸ hrow)
    exact ⟨hnonneg, by rw [htotal]; exact hbudget, fun w hw => by rw [htotal]; exact hlater w hw⟩
  · rcases List.mem_append.mp he with hold | hlast
    · exact h.keepsLater e hold
    · obtain ⟨err, rfl⟩ := hnew e hlast
      trivial

/-- The transactions under way when transaction `t` has moved on. -/
theorem Inv.pending_update (h : Inv cfg s log) (hrows : s'.rows = s.rows)
    (hlocks : ∀ t' key, t' ≠ t → s.locks key = some t' → s'.locks key = some t') {tx' : Option Tx}
    (htxs : s'.txs = Function.update s.txs t tx') (hnext : ∀ tx ∈ tx', Pending cfg s' t tx) :
    ∀ t' tx, s'.txs t' = some tx → Pending cfg s' t' tx := by
  intro t' tx htx
  rw [htxs] at htx
  by_cases ht : t' = t
  · subst ht
    rw [Function.update_self] at htx
    exact hnext tx htx
  · rw [Function.update_of_ne ht] at htx
    exact (h.pending t' tx htx).frame hrows (hlocks t' tx.key ht)

theorem locks_finish (s : Db) (t : ℕ) (key : String) (t' : ℕ) (k : String) (ht : t' ≠ t)
    (h : s.locks k = some t') : (s.finish t key).locks k = some t' := by
  show Function.update s.locks key _ k = some t'
  by_cases hk : k = key
  · subst hk
    rw [Function.update_self, if_neg (by rw [h]; exact fun heq => ht (Option.some.inj heq)), h]
  · rw [Function.update_of_ne hk, h]

theorem Inv.abort (h : Inv cfg s log) (t : ℕ) (tx : Tx) :
    Inv cfg (abort s t tx).1 (log ++ (PostgresCoordinator.abort s t tx).2) :=
  h.quiet rfl (h.pending_update rfl (locks_finish s t tx.key) rfl (by simp))
    fun e he => ⟨_, List.mem_singleton.mp he⟩

theorem totalGranted_committed (key : String) (w : ℚ) (log : List Event) (k : String) (e : ℚ)
    (granted : ℤ) (before : Option Row) (after : Row) :
    totalGranted key w (log ++ [.committed k e granted before after])
      = totalGranted key w log + if k = key ∧ e = w then (granted : ℚ) else 0 := by
  rw [totalGranted_append]
  simp [totalGranted, grantedFor]

/-- A transaction that holds its lock commits. -/
theorem Inv.commit (h : Inv cfg s log) {granted : ℤ} (htx : s.txs t = some tx)
    (hstage : tx.stage = .charged row granted)
    (hforward : ∀ stored ∈ s.rows tx.key, (stored.expiresAt : ℚ) ≤ expiresAt cfg tx.nowMs) :
    Inv cfg ((s.finish t tx.key).setRow tx.key row)
      (log ++ [.committed tx.key (expiresAt cfg tx.nowMs) granted (s.rows tx.key) row]) := by
  have hpending := h.pending t tx htx
  rw [Pending, hstage] at hpending
  obtain ⟨hlock, row₀, hupsert, hcharge⟩ := hpending
  obtain ⟨hexpires, haccounts⟩ :=
    accounts_upsert hupsert (h.unwritten tx.key) (h.written tx.key) hforward
  obtain ⟨hgranted, hle, hbudget, hsame⟩ := charge_spec haccounts.nonneg hcharge
  have hrow : (row.budget : ℚ)
      = cfg.budgetFor tx.key - totalGranted tx.key (expiresAt cfg tx.nowMs) log - granted := by
    rw [hbudget]
    push_cast
    rw [haccounts.budget, hexpires]
  have hnonneg : 0 ≤ row.budget := by omega
  have hnonneg' : (0 : ℚ) ≤ row.budget := by exact_mod_cast hnonneg
  have hrowExpires : (row.expiresAt : ℚ) = expiresAt cfg tx.nowMs := by rw [hsame, hexpires]
  refine ⟨fun key w => ?_, fun key hnone w => ?_, fun key r hr => ?_, fun t' tx' htx' => ?_,
    fun e he => ?_⟩
  · rw [totalGranted_committed]
    split
    · rename_i hmatch
      obtain ⟨rfl, rfl⟩ := hmatch
      linarith
    · rw [add_zero]
      exact h.granted_le key w
  · by_cases hkey : key = tx.key
    · subst hkey
      exact absurd ((Function.update_self ..).symm.trans hnone) (by simp)
    · have hold : s.rows key = none := (Function.update_of_ne hkey _ _).symm.trans hnone
      rw [totalGranted_committed, if_neg fun hmatch => hkey hmatch.1.symm, add_zero]
      exact h.unwritten key hold w
  · by_cases hkey : key = tx.key
    · subst hkey
      have hr' : Function.update s.rows tx.key (some row) tx.key = some r := hr
      rw [Function.update_self] at hr'
      obtain rfl : row = r := Option.some.inj hr'
      refine ⟨hnonneg, ?_, fun w hw => ?_⟩
      · rw [totalGranted_committed, if_pos ⟨rfl, hrowExpires.symm⟩, hrow, hrowExpires]
        ring
      · rw [totalGranted_committed, if_neg fun hmatch => hw.ne (hrowExpires.trans hmatch.2),
          add_zero]
        exact haccounts.later w (by rwa [← hsame])
    · have hold : s.rows key = some r := (Function.update_of_ne hkey _ _).symm.trans hr
      obtain ⟨hr0, hrb, hrl⟩ := h.written key r hold
      refine ⟨hr0, ?_, fun w hw => ?_⟩
      · rw [totalGranted_committed, if_neg fun hmatch => hkey hmatch.1.symm, add_zero]
        exact hrb
      · rw [totalGranted_committed, if_neg fun hmatch => hkey hmatch.1.symm, add_zero]
        exact hrl w hw
  · have htx'' : Function.update s.txs t none t' = some tx' := htx'
    by_cases ht : t' = t
    · subst ht
      rw [Function.update_self] at htx''
      cases htx''
    · rw [Function.update_of_ne ht] at htx''
      have hp := h.pending t' tx' htx''
      -- the committed row is not one that another transaction works on: its lock is taken
      have hother : s.locks tx'.key = some t' → ((s.finish t tx.key).setRow tx.key row).rows tx'.key
          = s.rows tx'.key := by
        intro hl
        refine Function.update_of_ne (fun hkey => ht ?_) _ _
        rw [hkey] at hl
        exact Option.some.inj (hl.symm.trans hlock)
      unfold Pending at hp ⊢
      split
      · trivial
      · rename_i r hr
        rw [hr] at hp
        exact ⟨locks_finish s t tx.key t' _ ht hp.1, (hother hp.1) ▸ hp.2⟩
      · rename_i r g hr
        rw [hr] at hp
        exact ⟨locks_finish s t tx.key t' _ ht hp.1, (hother hp.1) ▸ hp.2⟩
  · rcases List.mem_append.mp he with hold | hlast
    · exact h.keepsLater e hold
    · obtain rfl := List.mem_singleton.mp hlast
      intro stored hstored hlt
      exact absurd (hforward stored hstored) (not_le.mpr hlt)

theorem Inv.beginLease (h : Inv cfg s log) {tokens : ℚ} {nowMs : ℤ} {windowed : Bool}
    (hstep : beginLease s t key tokens nowMs windowed = some (s', new)) :
    Inv cfg s' (log ++ new) := by
  unfold PostgresCoordinator.beginLease at hstep
  split at hstep
  · cases hstep
  split at hstep
  · obtain ⟨rfl, rfl⟩ := Prod.mk.inj (Option.some.inj hstep)
    exact h.quiet rfl h.pending fun e he => ⟨_, List.mem_singleton.mp he⟩
  split at hstep
  · obtain ⟨rfl, rfl⟩ := Prod.mk.inj (Option.some.inj hstep)
    exact h.quiet rfl h.pending (by simp)
  · obtain ⟨rfl, rfl⟩ := Prod.mk.inj (Option.some.inj hstep)
    refine h.quiet rfl (h.pending_update rfl (fun _ _ _ hl => hl) rfl ?_) (by simp)
    rintro tx ⟨⟩
    trivial

/-- **One step.** -/
theorem Inv.step {a : Act} (h : Inv cfg s log) (hok : RollsForward cfg s a)
    (hstep : step cfg s a = some (s', new)) : Inv cfg s' (log ++ new) := by
  cases a with
  | lease t key tokens nowMs => exact h.beginLease hstep
  | leaseWindowed t key tokens nowMs => exact h.beginLease hstep
  | upsert t =>
    obtain ⟨tx, htx, hnext⟩ := Option.bind_eq_some_iff.mp hstep
    split at hnext
    · rename_i hstage
      split at hnext
      · cases hnext
      · rename_i hfree
        have hfree' : s.locks tx.key = none := by simpa using hfree
        split at hnext
        · rename_i row hrow
          obtain ⟨rfl, rfl⟩ := Prod.mk.inj (Option.some.inj hnext)
          refine h.quiet rfl (h.pending_update rfl (fun t' k ht hl => ?_) rfl ?_) (by simp)
          · show Function.update s.locks tx.key _ k = some t'
            rw [Function.update_of_ne (fun hk => by rw [hk, hfree'] at hl; cases hl), hl]
          · rintro tx' ⟨⟩
            exact ⟨Function.update_self .., hrow⟩
        · obtain ⟨rfl, rfl⟩ := Prod.mk.inj (Option.some.inj hnext)
          exact h.abort t tx
    · cases hnext
  | charge t =>
    obtain ⟨tx, htx, hnext⟩ := Option.bind_eq_some_iff.mp hstep
    split at hnext
    · rename_i row hstage
      have hp := h.pending t tx htx
      rw [Pending, hstage] at hp
      split at hnext
      · rename_i r hcharge
        obtain ⟨rfl, rfl⟩ := Prod.mk.inj (Option.some.inj hnext)
        refine h.quiet rfl (h.pending_update rfl (fun _ _ _ hl => hl) rfl ?_) (by simp)
        rintro tx' ⟨⟩
        exact ⟨hp.1, row, hp.2, hcharge⟩
      · obtain ⟨rfl, rfl⟩ := Prod.mk.inj (Option.some.inj hnext)
        exact h.abort t tx
    · cases hnext
  | commit t =>
    obtain ⟨tx, htx, hnext⟩ := Option.bind_eq_some_iff.mp hstep
    split at hnext
    · rename_i row granted hstage
      obtain ⟨rfl, rfl⟩ := Prod.mk.inj (Option.some.inj hnext)
      refine h.commit htx hstage fun stored hstored => ?_
      have hno : ((s.rows tx.key).any fun r => decide (expiresAt cfg tx.nowMs < r.expiresAt))
          = false := by
        simpa only [RollsForward, rollsBack, htx] using hok
      rw [Option.mem_def.mp hstored] at hno
      exact not_lt.mp (of_decide_eq_false hno)
    · cases hnext
  | rollback t =>
    obtain ⟨tx, htx, heq⟩ := Option.map_eq_some_iff.mp hstep
    obtain ⟨rfl, rfl⟩ := Prod.mk.inj heq
    exact h.abort t tx

/-- **Safety of the leases.** In every run in which no transaction commits an earlier window over a
later one, no window of a key grants more than the budget of the key, and no transaction of an
earlier window than the stored one changes the stored window or its budget. -/
theorem granted_le_budget (h : (step cfg).Run (RollsForward cfg) .new log s) :
    (∀ key w, totalGranted key w log ≤ cfg.budgetFor key) ∧ ∀ e ∈ log, e.KeepsLater := by
  have hI : Inv cfg s log := by
    refine h.invariant (I := Inv cfg) ?_ fun s log a s' new hI hok hstep => hI.step hok hstep
    exact ⟨fun key _ => zero_le_one.trans (cfg.one_le_budget key), fun _ _ _ => rfl,
      by rintro key row ⟨⟩, by rintro t tx ⟨⟩, by simp⟩
  exact ⟨hI.granted_le, hI.keepsLater⟩

theorem eight_one_le : (1 : ℚ) ≤ 8 := by norm_num

/-- A budget of eight a second. -/
def eightASecond : Config where
  windowMs := 1000
  budgetFor _ := 8
  one_le_windowMs := one_le_second
  one_le_budget _ := eight_one_le

/-- Three leases, of which two read the clock in one window and lock in the other order, and one in
the next. -/
theorem granted_le_budget_three_leases :
    totalGranted "api" 1000 (((step eightASecond).exec .new
      [.lease 0 "api" 5 100, .lease 1 "api" 5 200, .upsert 1, .charge 1, .lease 2 "api" 5 1100,
        .commit 1, .upsert 0, .charge 0, .commit 0, .upsert 2, .charge 2, .commit 2]).get
      (by decide +kernel)).2 ≤ 8 :=
  (granted_le_budget (Machine.run_of_isSome (by decide +kernel) (by decide +kernel))).1 "api" 1000

/-- Lease 0 reads the clock at 990 and gets the lock after lease 1, which read it at 1010 and took
the whole budget of [1000, 2000). It puts the window [0, 1000) back, and lease 2, at 1020, rolls the
row once more and takes the budget of [1000, 2000) again. -/
theorem late_lock_overspends :
    ¬ ∀ log s, (step eightASecond).Run InOrder .new log s →
      (∀ key w, totalGranted key w log ≤ eightASecond.budgetFor key) ∧ ∀ e ∈ log, e.KeepsLater := by
  intro h
  have hrun := Machine.run_of_isSome (m := step eightASecond) (p := InOrder) (s := .new)
    (l := [.lease 0 "api" 1 990, .lease 1 "api" 8 1010, .upsert 1, .charge 1, .commit 1,
      .upsert 0, .charge 0, .commit 0, .lease 2 "api" 8 1020, .upsert 2, .charge 2, .commit 2])
    (by decide +kernel) (by decide +kernel)
  exact absurd ((h _ _ hrun).1 "api" 2000) (by decide +kernel)

end ThrottleKit.PostgresCoordinator
