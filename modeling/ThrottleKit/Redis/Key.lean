import Mathlib.Data.Int.Log
import Mathlib.Data.Rat.Floor
import Mathlib.Tactic.Common

/-!
# Keys of a Redis server

A key holds a value and may have an expiry, on the server's clock in whole milliseconds. Once the
clock is past the expiry, commands find no key; when the server then removes the record makes no
difference. A script runs at one reading of the clock.

## Main definitions

* `Key`, with `read`, `write` and `pexpire`
* `luaInteger` — a Lua number as the integer a script replies
* `readBack` — a Lua number that was joined to a string
-/

namespace ThrottleKit.Redis

/-- The record of a key. -/
structure Key (V : Type) where
  value : V
  /-- The last instant at which the key is there; for ever when `none`. -/
  diesAt : Option ℤ

variable {V : Type}

/-- Whether the key is still there at `now`. -/
def Key.live (k : Key V) (now : ℤ) : Bool :=
  match k.diesAt with
  | some t => now ≤ t
  | none => true

/-- What a command at `now` finds. -/
def read (k : Option (Key V)) (now : ℤ) : Option V :=
  k.bind fun key => if key.live now then some key.value else none

/-- Write a value at `now`. A key that is there keeps its expiry. -/
def write (k : Option (Key V)) (now : ℤ) (value : V) : Key V :=
  ⟨value, k.bind fun key => if key.live now then key.diesAt else none⟩

/-- The key once `value` was written at `now` to live for `ms`: after `SET … PX`, or a write and
`PEXPIRE`. -/
def writePx (now : ℤ) (value : V) (ms : ℤ) : Key V := ⟨value, some (now + ms)⟩

/-- The key once `value` was written at `now` and given `ms` to live by `PEXPIRE`, which removes a
key that is given none. -/
def expireIn (now : ℤ) (value : V) (ms : ℤ) : Option (Key V) :=
  if 0 < ms then some (writePx now value ms) else none

/-- `PEXPIRE key ms` at `now`, for a positive `ms`; `none` is the error for one that is not
whole. -/
def pexpire (k : Key V) (now : ℤ) (ms : ℚ) : Option (Key V) :=
  if (⌊ms⌋ : ℚ) = ms then some { k with diesAt := some (now + ⌊ms⌋) } else none

/-- The integer reply for a Lua number: its fraction is dropped. -/
def luaInteger (x : ℚ) : ℤ := if 0 ≤ x then ⌊x⌋ else ⌈x⌉

theorem luaInteger_intCast (n : ℤ) : luaInteger n = n := by
  rw [luaInteger, Int.floor_intCast, Int.ceil_intCast, ite_self]

theorem luaInteger_le {x : ℚ} (h : 0 ≤ x) : (luaInteger x : ℚ) ≤ x := by
  rw [luaInteger, if_pos h]
  exact Int.floor_le x

theorem luaInteger_nonneg {x : ℚ} (h : 0 ≤ x) : (0 : ℚ) ≤ luaInteger x := by
  rw [luaInteger, if_pos h]
  exact_mod_cast Int.floor_nonneg.mpr h

/-- A number rounded to the nearest whole one, halves to the even one. -/
def roundEven (x : ℚ) : ℤ :=
  if Int.fract x = 1 / 2 then 2 * ⌊(x + 1) / 2⌋ else ⌊x + 1 / 2⌋

/-- What a number reads back as once it is written with fourteen significant digits (`%.14g`), as
Lua does when it joins a number to a string. -/
def readBack (x : ℚ) : ℚ :=
  if x = 0 then 0
  else
    let unit := (10 : ℚ) ^ (Int.log 10 |x| - 13)
    roundEven (x / unit) * unit

/-- `local now = tonumber(ARGV[1])`, or the clock of the server where that is zero. -/
def luaNow (server : ℤ) (nowArg : ℚ) : ℚ := if nowArg = 0 then server else nowArg

theorem roundEven_intCast (n : ℤ) : roundEven n = n := by
  have hhalf : ¬ (0 : ℚ) = 1 / 2 := by norm_num
  rw [roundEven, Int.fract_intCast, if_neg hhalf, Int.floor_eq_iff]
  constructor <;> linarith

/-- A whole number of at most fourteen digits reads back as it is. -/
theorem readBack_intCast {n : ℤ} (h : |n| < 10 ^ 14) : readBack n = n := by
  by_cases hzero : n = 0
  · rw [hzero, Int.cast_zero]
    rfl
  have hne : (n : ℚ) ≠ 0 := Int.cast_ne_zero.mpr hzero
  have hlog : Int.log 10 |(n : ℚ)| < 14 := by
    have hlt : |(n : ℚ)| < ((10 : ℕ) : ℚ) ^ (14 : ℤ) := by exact_mod_cast h
    exact (Int.lt_zpow_iff_log_lt (by norm_num) (abs_pos.mpr hne)).mp hlt
  obtain ⟨k, hk⟩ : ∃ k : ℕ, Int.log 10 |(n : ℚ)| - 13 = -(k : ℤ) :=
    ⟨(13 - Int.log 10 |(n : ℚ)|).toNat, by omega⟩
  have hdiv : (n : ℚ) / (10 : ℚ) ^ (-(k : ℤ)) = ((n * 10 ^ k : ℤ) : ℚ) := by
    rw [zpow_neg, div_inv_eq_mul, zpow_natCast]
    push_cast
    rfl
  rw [readBack, if_neg hne, hk]
  show (roundEven ((n : ℚ) / (10 : ℚ) ^ (-(k : ℤ))) : ℚ) * (10 : ℚ) ^ (-(k : ℤ)) = n
  rw [hdiv, roundEven_intCast, ← hdiv]
  exact div_mul_cancel₀ _ (zpow_ne_zero _ (by norm_num))

theorem read_eq_some {k : Option (Key V)} {now : ℤ} {v : V} (h : read k now = some v) :
    ∃ key ∈ k, key.live now = true ∧ key.value = v := by
  unfold read at h
  obtain ⟨key, hkey, hread⟩ := Option.bind_eq_some_iff.mp h
  split at hread
  · exact ⟨key, hkey, ‹_›, Option.some.inj hread⟩
  · cases hread

theorem read_writePx (now : ℤ) (value : V) (ms t : ℤ) :
    read (some (writePx now value ms)) t = if t ≤ now + ms then some value else none := by
  simp [read, writePx, Key.live]

theorem expireIn_of_pos (now : ℤ) (value : V) {ms : ℤ} (h : 0 < ms) :
    expireIn now value ms = some (writePx now value ms) := if_pos h

/-- A key that is not found has expired, or was never written. -/
theorem read_eq_none {k : Option (Key V)} {now : ℤ} (h : read k now = none) :
    ∀ key ∈ k, ∃ t, key.diesAt = some t ∧ t < now := by
  rintro key rfl
  have hlive : key.live now = false := by
    cases hl : key.live now with
    | false => rfl
    | true =>
      rw [read, Option.bind_some, if_pos hl] at h
      cases h
  unfold Key.live at hlive
  cases hdies : key.diesAt with
  | none => rw [hdies] at hlive; cases hlive
  | some t =>
    rw [hdies] at hlive
    exact ⟨t, rfl, by simpa using hlive⟩

theorem diesAt_of_pexpire {k k' : Key V} {now : ℤ} {ms : ℚ} (h : pexpire k now ms = some k') :
    k'.value = k.value ∧ ∃ t : ℤ, k'.diesAt = some t ∧ (t : ℚ) = now + ms := by
  unfold pexpire at h
  split at h
  · rename_i hwhole
    obtain rfl := Option.some.inj h
    refine ⟨rfl, now + ⌊ms⌋, rfl, ?_⟩
    push_cast
    rw [hwhole]
  · cases h

end ThrottleKit.Redis
