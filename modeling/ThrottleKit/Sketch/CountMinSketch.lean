import Mathlib.Data.Nat.Digits.Defs
import ThrottleKit.Core.Types
import ThrottleKit.Lib.Binary64
import ThrottleKit.Lib.CountMin

/-!
# The count-min sketch

One flat table of 32-bit counters, `depth` rows of `width` columns, and the total mass as a double.
A key has one counter in each row, found by a hash of its own for each row. An update stops at the
largest counter instead of wrapping.

A column is kept in an `Int32Array`, so that one from `2 ^ 31` on turns negative. Its index may
then lie in an earlier row, or before the table; an index outside of the table reads as `undefined`,
of which no comparison holds, and what is written there is lost.

## Main definitions

* `fnv1a`, `slots` — the hash of a row, and the counters of a key
* `CountMinSketch`, with `estimate`, `add`, `clear`, `mergeSnapshot` and `snapshot`

## Main results

* `table_add`, `table_mergeSnapshot` — on the table, these are the operations of `CountMin`
* `Covers.add` — an update of either mode keeps the table covering
-/

namespace ThrottleKit.Sketch

/-- A string, as its UTF-16 code units. -/
abbrev Key := List UInt16

/-- FNV-1a 32-bit prime. -/
def fnvPrime : UInt32 := 0x01000193

/-- FNV-1a 32-bit hash of the code units, the low byte of each first. -/
def fnv1a (str : Key) (basis : UInt32) : UInt32 :=
  str.foldl (fun h (c : UInt16) =>
    (((h ^^^ (c &&& 0xff).toUInt32) * fnvPrime) ^^^ ((c >>> 8) &&& 0xff).toUInt32) * fnvPrime) basis

/-- Counter ceiling. -/
def maxU32 : ℕ := 0xffffffff

/-- The shape and the hashing of a sketch. -/
structure Config where
  /-- Columns per row. -/
  width : ℕ
  /-- Rows. -/
  depth : ℕ
  /-- Whether `add` uses the conservative-update rule. -/
  conservative : Bool
  /-- The base seed. -/
  seed : UInt32
  width_pos : 0 < width
  depth_pos : 0 < depth

/-- Number of counters in the table. -/
def Config.size (cfg : Config) : ℕ := cfg.depth * cfg.width

/-- The string `row:i`. -/
def rowLabel (i : ℕ) : Key := (['r', 'o', 'w', ':'] ++ Nat.toDigits 10 i).map fun c =>
  c.toNat.toUInt16

/-- One seed per row, derived from the base seed. -/
def rowSeed (cfg : Config) (i : ℕ) : UInt32 := fnv1a (rowLabel i) cfg.seed

/-- The column of a key in a row, as an `Int32Array` keeps it. -/
def col (cfg : Config) (key : Key) (i : ℕ) : ℤ :=
  Int.bmod ((fnv1a key (rowSeed cfg i)).toNat % cfg.width : ℕ) (2 ^ 32)

/-- The counters of a key, row by row, without those whose index is outside of the table. -/
def slots (cfg : Config) (key : Key) : List ℕ :=
  (List.range cfg.depth).filterMap fun i =>
    let idx : ℤ := i * cfg.width + col cfg key i
    if 0 ≤ idx ∧ idx < cfg.size then some idx.toNat else none

/-- A detached, transportable copy of a sketch. -/
structure Snapshot where
  width : ℕ
  depth : ℕ
  /-- Total mass added into the source sketch. -/
  total : Float
  counters : List UInt32
deriving DecidableEq

/-- A sketch. The table has the length its shape says, and the total is not below zero. -/
structure CountMinSketch (cfg : Config) where
  counters : List UInt32
  /-- Total mass added across all keys. -/
  total : Float
  size_eq : counters.length = cfg.size
  total_nonneg : Binary64.Nonneg total

/-- The counter at an index of the table. -/
def table (counters : List UInt32) (i : ℕ) : ℕ := (counters.getD i 0).toNat

/-- Store a number in the table. -/
def store (counters : List UInt32) (i v : ℕ) : List UInt32 := counters.set i (UInt32.ofNat v)

/-- The smallest of the counters; `Infinity` when there is none. -/
def least (counters : List UInt32) (is : List ℕ) : WithTop ℕ :=
  is.foldl (fun least i => if WithTop.some (table counters i) < least then
    WithTop.some (table counters i) else least) ⊤

/-- `Math.min(x, MAX_U32)`. -/
def saturate (x : WithTop ℕ) : ℕ := min (x.untopD maxU32) maxU32

/-- The loop of the conservative update. -/
def raiseRows (target : ℕ) (is : List ℕ) (counters : List UInt32) : List UInt32 :=
  is.foldl (fun counters i =>
    if table counters i < target then store counters i target else counters) counters

/-- One row of the plain update: the table, and the smallest counter written so far. -/
def bumpRow (count : ℕ) (r : List UInt32 × WithTop ℕ) (i : ℕ) : List UInt32 × WithTop ℕ :=
  let v := min (table r.1 i + count) maxU32
  (store r.1 i v, if WithTop.some v < r.2 then WithTop.some v else r.2)

/-- The loop of the plain update. -/
def bumpRows (count : ℕ) (is : List ℕ) (counters : List UInt32) : List UInt32 × WithTop ℕ :=
  is.foldl (bumpRow count) (counters, ⊤)

/-- Add up two tables, counter by counter, each up to the ceiling. -/
def addCounters (a b : List UInt32) : List UInt32 :=
  List.zipWith (fun a b => UInt32.ofNat (min (a.toNat + b.toNat) maxU32)) a b

/-- The two ways `mergeSnapshot` fails. -/
inductive MergeError
  | shape (width depth ownWidth ownDepth : ℕ)
  | counters (got expected : ℕ)
deriving DecidableEq

/-- The message of the thrown `Error`. -/
def MergeError.message : MergeError → String
  | .shape width depth ownWidth ownDepth => "cannot merge a " ++ toString width ++ "x"
    ++ toString depth ++ " sketch into a " ++ toString ownWidth ++ "x" ++ toString ownDepth
    ++ " one"
  | .counters got expected => "sketch snapshot has " ++ toString got ++ " counters, expected "
    ++ toString expected

/-! ### The loops on the table -/

section Loops

variable {counters : List UInt32}

@[simp] theorem length_store (counters : List UInt32) (i v : ℕ) :
    (store counters i v).length = counters.length := List.length_set

@[simp] theorem length_raiseRows (target : ℕ) : ∀ (is : List ℕ) (counters : List UInt32),
    (raiseRows target is counters).length = counters.length
  | [], _ => rfl
  | i :: is, counters => by
    show (raiseRows target is (if _ then store counters i target else counters)).length = _
    rw [length_raiseRows target is]
    split <;> simp

theorem length_foldl_bumpRow (count : ℕ) : ∀ (is : List ℕ) (r : List UInt32 × WithTop ℕ),
    (is.foldl (bumpRow count) r).1.length = r.1.length
  | [], _ => rfl
  | i :: is, r => by
    rw [List.foldl_cons, length_foldl_bumpRow count is]
    exact length_store _ _ _

@[simp] theorem length_bumpRows (count : ℕ) (is : List ℕ) (counters : List UInt32) :
    (bumpRows count is counters).1.length = counters.length :=
  length_foldl_bumpRow count is _

theorem table_le (counters : List UInt32) (i : ℕ) : table counters i ≤ maxU32 :=
  Nat.le_of_lt_succ (counters.getD i 0).toNat_lt

theorem table_store {i v : ℕ} (hi : i < counters.length) (hv : v ≤ maxU32) :
    table (store counters i v) = Function.update (table counters) i v := by
  funext j
  by_cases hji : j = i
  · subst hji
    have hmod : v % 2 ^ 32 = v := Nat.mod_eq_of_lt (Nat.lt_succ_of_le hv)
    simpa [table, store, hi, List.getD_eq_getElem?_getD] using hmod
  · rw [Function.update_of_ne hji]
    simp [table, store, List.getD_eq_getElem?_getD, List.getElem?_set_ne (Ne.symm hji)]

theorem table_raiseRows {target : ℕ} (htarget : target ≤ maxU32) :
    ∀ {is : List ℕ} {counters : List UInt32}, (∀ i ∈ is, i < counters.length) →
      table (raiseRows target is counters) = CountMin.raise target is (table counters)
  | [], _, _ => rfl
  | i :: is, counters, h => by
    obtain ⟨hi, his⟩ := List.forall_mem_cons.mp h
    show table (raiseRows target is (if _ then store counters i target else counters))
      = CountMin.raise target is (if _ then _ else _)
    split
    · rw [table_raiseRows htarget (by simpa using his), table_store hi htarget]
    · exact table_raiseRows htarget his

theorem table_foldl_bumpRow {count : ℕ} :
    ∀ {is : List ℕ} {r : List UInt32 × WithTop ℕ}, (∀ i ∈ is, i < r.1.length) →
      table (is.foldl (bumpRow count) r).1 = CountMin.bump maxU32 count is (table r.1)
  | [], _, _ => rfl
  | i :: is, r, h => by
    obtain ⟨hi, his⟩ := List.forall_mem_cons.mp h
    rw [List.foldl_cons, table_foldl_bumpRow (by simpa [bumpRow] using his)]
    show CountMin.bump maxU32 count is (table (store r.1 i _)) = _
    rw [table_store hi (min_le_right _ _)]
    rfl

theorem length_addCounters {a b : List UInt32} (h : a.length = b.length) :
    (addCounters a b).length = a.length := by
  rw [addCounters, List.length_zipWith, h, min_self]

theorem table_addCounters {a b : List UInt32} (h : a.length = b.length) :
    table (addCounters a b) = CountMin.merge maxU32 (table a) (table b) := by
  funext i
  by_cases hi : i < a.length
  · have hb : i < b.length := h ▸ hi
    have hmod : min (a[i].toNat + b[i].toNat) maxU32 % 2 ^ 32
        = min (a[i].toNat + b[i].toNat) maxU32 :=
      Nat.mod_eq_of_lt (Nat.lt_succ_of_le (min_le_right _ _))
    simpa [table, addCounters, CountMin.merge, List.getD_eq_getElem?_getD, hi, hb] using hmod
  · have hb : ¬ i < b.length := h ▸ hi
    simp [table, addCounters, CountMin.merge, List.getD_eq_getElem?_getD, hi, hb]

theorem foldl_least (counters : List UInt32) : ∀ (is : List ℕ) (m : WithTop ℕ),
    is.foldl (fun least i => if WithTop.some (table counters i) < least then
      WithTop.some (table counters i) else least) m
      = min m (CountMin.estimate is (table counters))
  | [], m => (min_eq_left le_top).symm
  | i :: is, m => by
    rw [List.foldl_cons, foldl_least counters is, ← min_def_lt, min_comm _ m, min_assoc]
    rfl

/-- The loop of `estimate`. -/
theorem least_eq (counters : List UInt32) (is : List ℕ) :
    least counters is = CountMin.estimate is (table counters) := by
  rw [least, foldl_least]
  exact min_eq_right le_top

end Loops

/-! ### The operations -/

namespace CountMinSketch

variable {cfg : Config}

/-- A new sketch. -/
def empty (cfg : Config) : CountMinSketch cfg where
  counters := List.replicate cfg.size 0
  total := 0
  size_eq := List.length_replicate
  total_nonneg := Binary64.nonneg_zero

/-- Point estimate of a key's count: the smallest of its counters. -/
def estimate (s : CountMinSketch cfg) (key : Key) : WithTop ℕ := least s.counters (slots cfg key)

/-- The total once `count` was added. -/
def bumpedTotal (s : CountMinSketch cfg) (count : ℕ) : Float := s.total + count.toUInt64.toFloat

theorem bumpedTotal_nonneg (s : CountMinSketch cfg) (count : ℕ) :
    Binary64.Nonneg (s.bumpedTotal count) :=
  s.total_nonneg.add_of_le (Binary64.nonneg_toFloat _).le

/-- Add `count` to `key`, and return the new estimate. -/
def add (s : CountMinSketch cfg) (key : Key) (count : ℕ) : CountMinSketch cfg × WithTop ℕ :=
  if cfg.conservative then
    let target := saturate ((least s.counters (slots cfg key)).map (· + count))
    (⟨raiseRows target (slots cfg key) s.counters, s.bumpedTotal count,
      (length_raiseRows _ _ _).trans s.size_eq, s.bumpedTotal_nonneg count⟩, WithTop.some target)
  else
    let r := bumpRows count (slots cfg key) s.counters
    (⟨r.1, s.bumpedTotal count, (length_bumpRows _ _ _).trans s.size_eq,
      s.bumpedTotal_nonneg count⟩, r.2)

/-- Zero every counter and the total. -/
def clear (s : CountMinSketch cfg) : CountMinSketch cfg where
  counters := List.replicate s.counters.length 0
  total := 0
  size_eq := List.length_replicate.trans s.size_eq
  total_nonneg := Binary64.nonneg_zero

/-- A detached copy of the table and the total. -/
def snapshot (s : CountMinSketch cfg) : Snapshot := ⟨cfg.width, cfg.depth, s.total, s.counters⟩

/-- The total once a snapshot was folded in, unless its own total is not finite or negative. -/
def mergedTotal (s : CountMinSketch cfg) (snap : Snapshot) : Float :=
  if snap.total.isFinite ∧ 0 ≤ snap.total then s.total + snap.total else s.total

theorem mergedTotal_nonneg (s : CountMinSketch cfg) (snap : Snapshot) :
    Binary64.Nonneg (s.mergedTotal snap) := by
  unfold mergedTotal
  split
  · rename_i h
    exact s.total_nonneg.add_of_le h.2
  · exact s.total_nonneg

/-- Fold another sketch's counts into this one, counter by counter. -/
def mergeSnapshot (s : CountMinSketch cfg) (snap : Snapshot) :
    Except MergeError (CountMinSketch cfg) :=
  if snap.width ≠ cfg.width ∨ snap.depth ≠ cfg.depth then
    .error (.shape snap.width snap.depth cfg.width cfg.depth)
  else if h : snap.counters.length ≠ s.counters.length then
    .error (.counters snap.counters.length s.counters.length)
  else
    .ok ⟨addCounters s.counters snap.counters, s.mergedTotal snap,
      (length_addCounters (not_not.mp h).symm).trans s.size_eq, s.mergedTotal_nonneg snap⟩

/-! ### The operations on the table -/

theorem slots_lt {key : Key} {i : ℕ} (h : i ∈ slots cfg key) : i < cfg.size := by
  obtain ⟨row, -, hrow⟩ := List.mem_filterMap.mp h
  dsimp only at hrow
  split at hrow
  · obtain rfl := Option.some.inj hrow
    omega
  · cases hrow

theorem slots_lt_length (s : CountMinSketch cfg) {key : Key} {i : ℕ} (h : i ∈ slots cfg key) :
    i < s.counters.length := s.size_eq ▸ slots_lt h

theorem table_empty (cfg : Config) : table (empty cfg).counters = fun _ => 0 := by
  funext i
  simp [table, empty, List.getD_eq_getElem?_getD, List.getElem?_replicate]
  split <;> rfl

theorem table_clear (s : CountMinSketch cfg) : table s.clear.counters = fun _ => 0 := by
  rw [← table_empty cfg]
  show table (List.replicate s.counters.length 0) = _
  rw [s.size_eq]
  rfl

/-- **The plain update on the table.** -/
theorem table_add_plain (hplain : cfg.conservative = false) (s : CountMinSketch cfg) (key : Key)
    (count : ℕ) : table (s.add key count).1.counters
      = CountMin.bump maxU32 count (slots cfg key) (table s.counters) := by
  rw [add, if_neg (by simp [hplain])]
  exact table_foldl_bumpRow fun _ => s.slots_lt_length

/-- **The conservative update on the table.** -/
theorem table_add_conservative (hcons : cfg.conservative = true) (s : CountMinSketch cfg)
    (key : Key) (count : ℕ) : table (s.add key count).1.counters
      = CountMin.raise (saturate ((s.estimate key).map (· + count))) (slots cfg key)
          (table s.counters) := by
  rw [add, if_pos hcons]
  exact table_raiseRows (min_le_right _ _) fun _ => s.slots_lt_length

/-- **The union on the table.** -/
theorem table_mergeSnapshot {s s' : CountMinSketch cfg} {snap : Snapshot}
    (h : s.mergeSnapshot snap = .ok s') : table s'.counters
      = CountMin.merge maxU32 (table s.counters) (table snap.counters) := by
  unfold mergeSnapshot at h
  split at h
  · cases h
  · split at h
    · cases h
    · rename_i hlen
      cases h
      exact table_addCounters (not_not.mp hlen).symm

/-- A sketch of the same shape can be folded in. -/
theorem mergeSnapshot_snapshot (s t : CountMinSketch cfg) :
    ∃ s', s.mergeSnapshot t.snapshot = .ok s' ∧ s'.total = s.mergedTotal t.snapshot := by
  unfold mergeSnapshot
  rw [if_neg (by simp [snapshot]), dif_neg (by simp [snapshot, s.size_eq, t.size_eq])]
  exact ⟨_, rfl, rfl⟩

/-- An update of either mode keeps the table covering. -/
theorem covers_add {updates : List (Key × ℕ)} {s : CountMinSketch cfg}
    (h : CountMin.Covers maxU32 (slots cfg) updates (table s.counters)) (key : Key) (count : ℕ) :
    CountMin.Covers maxU32 (slots cfg) (updates ++ [(key, count)])
      (table (s.add key count).1.counters) := by
  cases hmode : cfg.conservative with
  | false =>
    rw [table_add_plain hmode]
    exact h.bump (table_le _)
  | true =>
    rw [table_add_conservative hmode]
    refine h.raise ?_
    have hest := h.le_estimate key
    rw [estimate, least_eq]
    unfold saturate
    cases hm : CountMin.estimate (slots cfg key) (table s.counters) with
    | top => simp
    | coe m =>
      rw [hm] at hest
      have hle : min (CountMin.trueCount updates key) maxU32 ≤ m := WithTop.coe_le_coe.mp hest
      show _ ≤ min (m + count) maxU32
      omega

end CountMinSketch

/-! ### Shapes the examples use -/

theorem three_columns_pos : (0 : ℕ) < 3 := by decide

theorem two_rows_pos : (0 : ℕ) < 2 := by decide

theorem one_row_pos : (0 : ℕ) < 1 := by decide

/-! ### Counts -/

/-- The ways a count is refused. -/
inductive CountError
  | cost (e : CostError)
  | notInteger (name : String) (value : ℚ)
deriving DecidableEq

/-- The message of the thrown `RangeError`. -/
def CountError.message : CountError → String
  | .cost e => e.message
  | .notInteger name value => name ++ " must be an integer, got " ++ toString value

/-- Validate a count: `requireCost`, then `requireInteger`. -/
def requireCount (name : String) (value : ℚ) : Except CountError ℕ :=
  match requireCost value with
  | .error e => .error (.cost e)
  | .ok () => if value.den = 1 then .ok value.num.toNat else .error (.notInteger name value)

/-- An accepted count is a whole number above zero. -/
theorem requireCount_spec {name : String} {value : ℚ} {n : ℕ}
    (h : requireCount name value = .ok n) : 0 < n ∧ (n : ℚ) = value := by
  unfold requireCount at h
  split at h
  · cases h
  · rename_i hcost
    split at h
    · rename_i hden
      cases h
      have hpos : 0 < value.num := Rat.num_pos.mpr (pos_of_requireCost hcost)
      have hcast : ((value.num.toNat : ℤ) : ℚ) = value := by
        rw [Int.toNat_of_nonneg hpos.le]
        exact Rat.coe_int_num_of_den_eq_one hden
      exact ⟨by omega, by exact_mod_cast hcast⟩
    · cases h

end ThrottleKit.Sketch
