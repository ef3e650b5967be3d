import Mathlib.Data.Rat.Floor
import Mathlib.Logic.Function.Basic
import Mathlib.Tactic.Common

/-!
# The timing wheel

Keys that are to expire, in slots by the tick of their expiry, modulo the number of slots. Advancing
the wheel visits the slots of the ticks that have come, one rotation of them at most, and expires
the keys there whose time has passed; the others stay, for a later lap.

Which keys a slot holds decides when a key is looked at. Whether it expires then depends on its
entry alone, so what `advance` says of the entries does not mention ticks or slots.

## Main definitions

* `Deadline` — when a key expires
* `Wheel`, with `set`, `delete` and `advance`
* `Swept` — what an advance may do to the entries

## Main results

* `advance_swept` — an advance drops entries whose time has passed, and nothing else
-/

namespace ThrottleKit

/-- When an entry expires: at an instant, or at `Infinity`. -/
inductive Deadline
  | on (t : ℚ)
  | never
deriving DecidableEq

/-- `exp <= now`. -/
def Deadline.passed (exp : Deadline) (now : ℚ) : Bool :=
  match exp with
  | .on t => t ≤ now
  | .never => false

theorem Deadline.passed_mono {exp : Deadline} {now now' : ℚ} (hle : now ≤ now')
    (h : exp.passed now = true) : exp.passed now' = true := by
  cases exp with
  | on t => exact decide_eq_true ((of_decide_eq_true h).trans hle)
  | never => cases h

namespace TimingWheel

/-- The options of the wheel. -/
structure Options where
  tickMs : ℚ
  wheelSize : ℚ

/-- `Math.max(1, Math.floor(tickMs))`. -/
def Options.tick (o : Options) : ℤ := max 1 ⌊o.tickMs⌋

/-- The number of slots, `Math.max(2, Math.floor(wheelSize))`. -/
def Options.n (o : Options) : ℤ := max 2 ⌊o.wheelSize⌋

/-- A scheduled key. -/
structure WheelEntry where
  exp : Deadline
  /-- Its slot. The slot of `Infinity` is not a number: there is none. -/
  slot : Option ℤ

/-- The wheel. -/
structure Wheel where
  slots : ℤ → List String
  entries : String → Option WheelEntry
  lastTick : ℤ

/-- `Math.floor(t / tickMs)`. -/
def tickOf (o : Options) (t : ℚ) : ℤ := ⌊t / o.tick⌋

/-- A new wheel at `now`. -/
def Wheel.start (o : Options) (now : ℚ) : Wheel := ⟨fun _ => [], fun _ => none, tickOf o now⟩

/-- The slot of a tick. -/
def slotForTick (o : Options) (tick : ℤ) : ℤ :=
  let m := tick.tmod o.n
  if m < 0 then m + o.n else m

/-- The slot of a key that expires at `exp`: at least one tick ahead of the hand. -/
def slotFor (o : Options) (w : Wheel) (exp : Deadline) : Option ℤ :=
  match exp with
  | .on t => some (slotForTick o (max (w.lastTick + 1) (tickOf o t)))
  | .never => none

/-- Add a key to a slot. -/
def place (slots : ℤ → List String) (slot : Option ℤ) (key : String) : ℤ → List String :=
  match slot with
  | some i => Function.update slots i (if key ∈ slots i then slots i else slots i ++ [key])
  | none => slots

/-- Delete a key from a slot. -/
def unplace (slots : ℤ → List String) (slot : Option ℤ) (key : String) : ℤ → List String :=
  match slot with
  | some i => Function.update slots i ((slots i).erase key)
  | none => slots

/-- Schedule or reschedule `key` to expire at `exp`. -/
def Wheel.set (o : Options) (w : Wheel) (key : String) (exp : Deadline) : Wheel :=
  let slot := slotFor o w exp
  let slots := match w.entries key with
    | some prev =>
      if prev.slot ≠ slot then place (unplace w.slots prev.slot key) slot key else w.slots
    | none => place w.slots slot key
  ⟨slots, Function.update w.entries key (some ⟨exp, slot⟩), w.lastTick⟩

/-- Remove `key` from the wheel. -/
def Wheel.delete (w : Wheel) (key : String) : Wheel :=
  match w.entries key with
  | some e => ⟨unplace w.slots e.slot key, Function.update w.entries key none, w.lastTick⟩
  | none => w

/-- One key of a slot: expired, or left for a later lap. With the keys expired so far. -/
def sweepKey (now : ℚ) (slot : ℤ) (r : Wheel × List String) (key : String) :
    Wheel × List String :=
  match r.1.entries key with
  | some e =>
    if e.exp.passed now then
      (⟨unplace r.1.slots (some slot) key, Function.update r.1.entries key none, r.1.lastTick⟩,
        r.2 ++ [key])
    else r
  | none => r

/-- The slot of one tick. -/
def sweepTick (o : Options) (now : ℚ) (r : Wheel × List String) (tick : ℤ) : Wheel × List String :=
  (r.1.slots (slotForTick o tick)).foldl (sweepKey now (slotForTick o tick)) r

/-- The ticks from the hand up to that of `now`, one rotation at most. -/
def ticksTo (o : Options) (w : Wheel) (now : ℚ) : List ℤ :=
  (List.range (min (tickOf o now - w.lastTick) o.n).toNat).map fun i => w.lastTick + (i + 1)

/-- Advance to `now`: the wheel, and the keys that expired, in order. -/
def Wheel.advance (o : Options) (w : Wheel) (now : ℚ) : Wheel × List String :=
  if tickOf o now - w.lastTick ≤ 0 then (w, [])
  else
    let r := (ticksTo o w now).foldl (sweepTick o now) (w, [])
    (⟨r.1.slots, r.1.entries, tickOf o now⟩, r.2)

@[simp] theorem set_entries (o : Options) (w : Wheel) (key : String) (exp : Deadline) :
    (w.set o key exp).entries = Function.update w.entries key (some ⟨exp, slotFor o w exp⟩) := rfl

theorem delete_entries (w : Wheel) (key : String) :
    (w.delete key).entries = Function.update w.entries key none := by
  unfold Wheel.delete
  split
  · rfl
  · rename_i hnone
    rw [← hnone, Function.update_eq_self]

/-- What an advance from `w` may do to the entries: the keys that expired had passed their time, and
the other entries are as they were. -/
structure Swept (now : ℚ) (w : Wheel) (r : Wheel × List String) : Prop where
  entries : ∀ key, r.1.entries key = if key ∈ r.2 then none else w.entries key
  passed : ∀ key ∈ r.2, ∃ e, w.entries key = some e ∧ e.exp.passed now = true

variable {o : Options} {w : Wheel} {now : ℚ} {r : Wheel × List String}

theorem swept_refl (now : ℚ) (w : Wheel) : Swept now w (w, []) where
  entries key := by simp
  passed key hkey := by cases hkey

theorem Swept.sweepKey (h : Swept now w r) (slot : ℤ) (key : String) :
    Swept now w (sweepKey now slot r key) := by
  unfold TimingWheel.sweepKey
  split
  · rename_i e he
    split
    · rename_i hpassed
      have hw : w.entries key = some e := by
        have hkey := h.entries key
        rw [he] at hkey
        split at hkey
        · cases hkey
        · exact hkey.symm
      constructor
      · intro k
        by_cases hk : k = key
        · subst hk
          simp
        · show Function.update r.1.entries key none k = _
          rw [Function.update_of_ne hk, h.entries k]
          simp [hk]
      · intro k hk
        rcases List.mem_append.mp hk with hmem | hmem
        · exact h.passed k hmem
        · obtain rfl := List.mem_singleton.mp hmem
          exact ⟨e, hw, hpassed⟩
    · exact h
  · exact h

theorem Swept.foldl_sweepKey (slot : ℤ) (keys : List String) (h : Swept now w r) :
    Swept now w (keys.foldl (TimingWheel.sweepKey now slot) r) := by
  induction keys generalizing r with
  | nil => exact h
  | cons key keys ih => exact ih (h.sweepKey slot key)

theorem Swept.foldl_sweepTick (ticks : List ℤ) (h : Swept now w r) :
    Swept now w (ticks.foldl (sweepTick o now) r) := by
  induction ticks generalizing r with
  | nil => exact h
  | cons tick ticks ih => exact ih (h.foldl_sweepKey _ _)

/-- **An advance drops entries whose time has passed, and nothing else.** -/
theorem advance_swept (o : Options) (w : Wheel) (now : ℚ) : Swept now w (w.advance o now) := by
  unfold Wheel.advance
  split
  · exact swept_refl now w
  · have h := (swept_refl now w).foldl_sweepTick (o := o) (ticksTo o w now)
    exact ⟨h.entries, h.passed⟩

end TimingWheel

end ThrottleKit
