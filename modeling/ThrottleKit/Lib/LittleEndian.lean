import Mathlib.Data.Nat.Digits.Lemmas
import Mathlib.Tactic.Common

/-!
# Little-endian numbers in byte strings

A number in `k` bytes, its low byte first. A number that does not fit loses its high part. A
field of a byte string is the number in the `k` bytes from an offset on.

## Main definitions

* `encode`, `decode` — numbers to bytes and back
* `field` — the number at an offset
* `encodeAll`, `decodeAll` — arrays of numbers of one width

## Main results

* `decode_encode_mod` — reading back what was written
* `field_prepend`, `field_skip` — a field at the front, and one further on
* `decodeAll_encodeAll` — reading back an array
-/

namespace LittleEndian

/-- The low `k` bytes of `n`, the lowest first. -/
def encode : ℕ → ℕ → List UInt8
  | 0, _ => []
  | k + 1, n => UInt8.ofNat n :: encode k (n / 256)

/-- The number that the bytes are the digits of. -/
def decode : List UInt8 → ℕ
  | [] => 0
  | b :: bs => b.toNat + 256 * decode bs

/-- The number in the `k` bytes from `offset` on. -/
def field (k offset : ℕ) (bytes : List UInt8) : ℕ := decode ((bytes.drop offset).take k)

@[simp] theorem length_encode (k n : ℕ) : (encode k n).length = k := by
  induction k generalizing n with
  | zero => rfl
  | succ k ih => simp [encode, ih]

/-- Reading back what was written: the low part of the number. -/
theorem decode_encode_mod (k n : ℕ) : decode (encode k n) = n % 256 ^ k := by
  induction k generalizing n with
  | zero => simp [encode, decode, Nat.mod_one]
  | succ k ih =>
    rw [encode, decode, ih, pow_succ', Nat.mod_mul, UInt8.toNat_ofNat']

theorem field_prepend {k n : ℕ} (rest : List UInt8) :
    field k 0 (encode k n ++ rest) = n % 256 ^ k := by
  rw [field, List.drop_zero, List.take_left' (length_encode k n), decode_encode_mod]

theorem field_skip (front rest : List UInt8) (k offset : ℕ) :
    field k (front.length + offset) (front ++ rest) = field k offset rest := by
  rw [field, field, ← List.drop_drop, List.drop_left]

/-! ### Arrays -/

/-- The numbers one after the other, in `k` bytes each. -/
def encodeAll (k : ℕ) (ns : List ℕ) : List UInt8 := ns.flatMap (encode k)

/-- The first `n` numbers of `k` bytes each. -/
def decodeAll (k n : ℕ) (bytes : List UInt8) : List ℕ :=
  (List.range n).map fun i => field k (k * i) bytes

@[simp] theorem length_encodeAll (k : ℕ) (ns : List ℕ) :
    (encodeAll k ns).length = k * ns.length := by
  induction ns with
  | nil => rfl
  | cons n ns ih =>
    show (encode k n ++ encodeAll k ns).length = _
    rw [List.length_append, ih, length_encode, List.length_cons, Nat.mul_succ, Nat.add_comm]

/-- **An array of numbers that fit is read back.** -/
theorem decodeAll_encodeAll {k : ℕ} : ∀ {ns : List ℕ}, (∀ n ∈ ns, n < 256 ^ k) →
    decodeAll k ns.length (encodeAll k ns) = ns
  | [], _ => rfl
  | n :: ns, h => by
    have ih : decodeAll k ns.length (encodeAll k ns) = ns :=
      decodeAll_encodeAll fun m hm => h m (List.mem_cons_of_mem _ hm)
    have hfront : field k (k * 0) (encode k n ++ encodeAll k ns) = n := by
      rw [Nat.mul_zero, field_prepend, Nat.mod_eq_of_lt (h n List.mem_cons_self)]
    have hrest : ∀ i, field k (k * (i + 1)) (encode k n ++ encodeAll k ns)
        = field k (k * i) (encodeAll k ns) := by
      intro i
      have hskip := field_skip (encode k n) (encodeAll k ns) k (k * i)
      rwa [length_encode, show k + k * i = k * (i + 1) by ring] at hskip
    show (List.range (ns.length + 1)).map (fun i => field k (k * i) (encode k n ++ encodeAll k ns))
      = n :: ns
    rw [List.range_succ_eq_map, List.map_cons, List.map_map, hfront]
    congr 1
    refine Eq.trans (List.map_congr_left fun i _ => ?_) ih
    exact hrest i

end LittleEndian
