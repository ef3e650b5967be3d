import Mathlib.Logic.Function.Basic
import ThrottleKit.Core.Types

/-!
# The regional escrow

The in-memory regional escrow (L2): per key one balance, tagged with the coordinator window it was
refilled from and dead at the end of that window. `lease` takes from the balance, `refill` adds to
it or replaces it by a balance of another window, `release` hands back what is left.

An operation on an unhealthy escrow throws; here it has no result (`none`).

## Main definitions

* `RegionalEscrow.Escrow`, with `lease`, `refill` and `release`
-/

namespace ThrottleKit.RegionalEscrow

/-- One L2 entry: a balance and the window it comes from. -/
structure Entry where
  balance : ℚ
  /-- The coordinator window this balance is from. -/
  sourceLease : ℚ
  /-- When this entry's window ends. -/
  expiresAt : ℚ

/-- The escrow of one region. -/
structure Escrow where
  windowMs : ℚ
  healthy : Bool
  entries : String → Option Entry

/-- The escrow as constructed. -/
def Escrow.new (windowMs : ℚ) : Escrow := ⟨windowMs, true, fun _ => none⟩

/-- Write the entry of `key`. -/
def Escrow.setEntry (s : Escrow) (key : String) (e : Option Entry) : Escrow :=
  { s with entries := Function.update s.entries key e }

/-- `lease(key, tokens)` at time `now`: the amount granted. -/
def Escrow.lease (s : Escrow) (key : String) (tokens now : ℚ) : Option (Escrow × ℚ) :=
  if !s.healthy then none
  else if tokens < 0 then none
  else if tokens = 0 then some (s, 0)
  else match s.entries key with
    | none => some (s, 0)
    | some e =>
      if e.expiresAt ≤ now then some (s, 0)
      else
        let granted := min tokens e.balance
        if granted ≤ 0 then some (s, 0)
        else some (s.setEntry key (some { e with balance := e.balance - granted }), granted)

/-- `refill(key, granted, sourceWindowStart)` at time `now`: whether the refill was applied. -/
def Escrow.refill (s : Escrow) (key : String) (granted sourceWindowStart now : ℚ) :
    Option (Escrow × Bool) :=
  if !s.healthy then none
  else if granted < 0 then none
  else if sourceWindowStart < 0 then none
  else if granted = 0 then some (s, true)
  else
    let expiresAt := sourceWindowStart + s.windowMs
    -- a refill for an expired window is dropped
    if expiresAt ≤ now then some (s, false)
    else
      let fresh : Entry := ⟨granted, sourceWindowStart, expiresAt⟩
      match s.entries key with
      | none => some (s.setEntry key (some fresh), true)
      | some e =>
        if e.sourceLease ≠ sourceWindowStart then some (s.setEntry key (some fresh), true)
        else
          let added : Entry := { e with balance := e.balance + granted, expiresAt := expiresAt }
          some (s.setEntry key (some added), true)

/-- `release(key, sourceWindowStart)`: the balance handed back. -/
def Escrow.release (s : Escrow) (key : String) (sourceWindowStart : ℚ) : Option (Escrow × ℚ) :=
  if !s.healthy then none
  else if sourceWindowStart < 0 then none
  else match s.entries key with
    | none => some (s, 0)
    | some e =>
      if e.sourceLease ≠ sourceWindowStart then some (s, 0)
      else some (s.setEntry key none, e.balance)

/-- The window the tokens of `key` belong to at present. -/
def Escrow.sourceOf (s : Escrow) (key : String) : ℚ :=
  match s.entries key with
  | some e => e.sourceLease
  | none => 0

/-- A lease never grants a negative amount. -/
theorem Escrow.lease_nonneg {s s' : Escrow} {key : String} {tokens now granted : ℚ}
    (h : s.lease key tokens now = some (s', granted)) : 0 ≤ granted := by
  unfold Escrow.lease at h
  split at h
  · cases h
  split at h
  · cases h
  split at h
  · obtain ⟨-, rfl⟩ := Prod.mk.inj (Option.some.inj h); exact le_rfl
  split at h
  · obtain ⟨-, rfl⟩ := Prod.mk.inj (Option.some.inj h); exact le_rfl
  split at h
  · obtain ⟨-, rfl⟩ := Prod.mk.inj (Option.some.inj h); exact le_rfl
  dsimp only at h
  split at h
  · obtain ⟨-, rfl⟩ := Prod.mk.inj (Option.some.inj h); exact le_rfl
  · rename_i hpos
    obtain ⟨-, rfl⟩ := Prod.mk.inj (Option.some.inj h)
    exact (not_le.mp hpos).le

end ThrottleKit.RegionalEscrow
