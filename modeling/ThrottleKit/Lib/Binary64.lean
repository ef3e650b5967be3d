import Mathlib

/-!
# Bits, signs and powers of doubles

What a codec of counts needs to know about `Float`: a double is read back from its bits, a sum of
doubles with a positive sign has a positive sign, and doubling goes on until infinity. All is proved
on the logical model of `Float`, whose values are bit patterns with one pattern for all that is not
a number.

## Main definitions

* `Nonneg` — a positive sign, and a number or infinity
* `twoPow` — the powers of two

## Main results

* `ofBits_toBits` — the bits determine the double
* `Nonneg.add_of_le` — sums stay nonnegative
* `Nonneg.not_lt_zero` — a nonnegative double is not below zero
* `twoPow_add_self` — doubling a power of two
-/

namespace Binary64

open Float.Model Float.Model.UnpackedFloat

/-- A bit pattern of the format. -/
abbrev Bits := BitVec Format.binary64.numBits

/-! ### Reading back from the bits -/

theorem toBitVec_ofBitVec (b : BitVec 1) : (Sign.ofBitVec b).toBitVec = b := by
  revert b
  decide

/-- The three fields make up the bits. -/
theorem packComponents_fields (b : Bits) :
    packComponents Format.binary64 (Sign.ofBitVec (unpackSign b)) (unpackExponent b)
      (unpackMantissa b) = b := by
  rw [packComponents, toBitVec_ofBitVec]
  ext i hi
  simp only [unpackSign, unpackExponent, unpackMantissa, BitVec.extractLsb]
  grind

/-- The mantissa of a normal double, with its implicit bit. -/
theorem toNat_implicit (m : BitVec 52) : (1#1 ++ m).toNat = 2 ^ 52 + m.toNat := by
  rw [BitVec.toNat_append, ← Nat.shiftLeft_add_eq_or_of_lt m.isLt]
  rfl

theorem log2_implicit (m : BitVec 52) : (2 ^ 52 + m.toNat).log2 = 52 := by
  have hm : m.toNat < 2 ^ 52 := m.isLt
  rw [Nat.log2_eq_iff (by omega)]
  omega

/-- The exponent field that a subnormal double has, and the one a normal double has. -/
theorem pack_subnormal (s : Sign) (m : BitVec 52) (hpos : 0 < m.toNat) :
    UnpackedFloat.pack Format.binary64 (.finite s m.toNat (-1074) hpos)
      = packComponents Format.binary64 s 0#11 m := by
  have hlog : m.toNat.log2 < 52 := (Nat.log2_lt (Nat.ne_of_gt hpos)).mpr m.isLt
  have hbias : ((-1074 : ℤ) + Format.binary64.exponentBias + (52 : Nat)).toNat = 1 := rfl
  rw [UnpackedFloat.pack]
  dsimp only
  rw [hbias, if_neg (by decide), if_neg (by show ¬ m.toNat.log2 + 1 = 53; omega),
    BitVec.ofNat_toNat, BitVec.setWidth_eq]

theorem pack_normal (s : Sign) (e : BitVec 11) (m : BitVec 52) (he : e ≠ -1#11) (hpos) :
    UnpackedFloat.pack Format.binary64 (.finite s (1#1 ++ m).toNat (e.toNat - 1075) hpos)
      = packComponents Format.binary64 s e m := by
  have hlt : e.toNat + 1 < 2 ^ 11 := by
    have hne : e.toNat ≠ 2047 := fun h => he (BitVec.eq_of_toNat_eq h)
    have := e.isLt
    omega
  have hbias : ((e.toNat - 1075 : ℤ) + Format.binary64.exponentBias + (52 : Nat)).toNat
      = e.toNat := by
    show ((e.toNat - 1075 : ℤ) + 1023 + 52).toNat = e.toNat
    omega
  rw [UnpackedFloat.pack]
  dsimp only
  rw [hbias, if_neg (by show ¬ 2 ^ 11 ≤ e.toNat + 1; omega), toNat_implicit, log2_implicit,
    if_pos (show 52 + 1 = Format.binary64.mantissaBits from rfl), BitVec.ofNat_toNat,
    BitVec.setWidth_eq]
  congr 1
  exact BitVec.eq_of_toNat_eq (by simpa using m.isLt)

/-- Packing what was unpacked gives the bits back. -/
theorem pack_unpack {b : Bits} (h : Format.binary64.Valid b) :
    UnpackedFloat.pack Format.binary64 (UnpackedFloat.unpack Format.binary64 b) = b := by
  have hfields := packComponents_fields b
  rw [UnpackedFloat.unpack]
  dsimp only
  split
  · rename_i hexp
    split
    · rename_i hzero
      rw [hexp, hzero] at hfields
      exact hfields
    · rename_i hzero
      exact (h.eq_packedNaN hexp hzero).symm
  · rename_i hexp
    split
    · rename_i hsub
      rw [hsub] at hfields ⊢
      split
      · rename_i hzero
        rw [hzero] at hfields
        exact hfields
      · exact (pack_subnormal _ _ _).trans hfields
    · exact (pack_normal _ _ _ hexp _).trans hfields

/-- **A double is read back from its bits.** -/
theorem ofBits_toBits (f : Float) : Float.ofBits f.toBits = f := by
  obtain ⟨bits, hvalid⟩ := f
  show Float.ofModel (Float.Model.ofBits bits) = _
  congr 1
  unfold Float.Model.ofBits Float.Model.pack
  congr 1
  rw [pack_unpack hvalid]

/-! ### Signs -/

/-- A positive sign, and a number or infinity. -/
inductive Positive : UnpackedFloat → Prop
  | infinity : Positive (.infinity .positive)
  | zero : Positive (.zero .positive)
  | finite (m e h) : Positive (.finite .positive m e h)

/-- The double is `+0`, above zero, or `Infinity`. -/
def Nonneg (f : Float) : Prop := Positive f.toModel.unpack

theorem positive_roundWithAccuracy (spec : Format) (m : Nat) (e : Int) (accuracy : Accuracy) :
    Positive (roundWithAccuracy spec .positive m e accuracy) := by
  unfold roundWithAccuracy
  dsimp only
  split
  · exact .zero
  · exact .finite _ _ _

theorem positive_normalize (spec : Format) {m : Int} (hm : 0 ≤ m) (e : Int) :
    Positive (UnpackedFloat.normalize spec m e .positive) := by
  unfold UnpackedFloat.normalize
  split
  · rename_i hlt
    have hneg : m < 0 := Int.compare_eq_lt.mp hlt
    omega
  · exact .zero
  · exact positive_roundWithAccuracy _ _ _ _

/-- What is added may be `-0` as well. -/
theorem Positive.add_of_le (spec : Format) {x y : UnpackedFloat} (hx : Positive x)
    (hy : (UnpackedFloat.zero .positive).le y = true) : Positive (UnpackedFloat.add spec x y) := by
  match y, hy with
  | .infinity .positive, _ => cases hx <;> exact .infinity
  | .zero sign, _ =>
    cases hx with
    | infinity => exact .infinity
    | zero => cases sign <;> exact .zero
    | finite m e h => exact .finite m e h
  | .finite .positive m' e' h', _ =>
    cases hx with
    | infinity => exact .infinity
    | zero => exact .finite m' e' h'
    | finite m e h =>
      exact positive_normalize spec (Int.add_nonneg (Int.natCast_nonneg _) (Int.natCast_nonneg _)) _

theorem unpackSign_packComponents (s : Sign) (e : BitVec Format.binary64.exponentBits)
    (m : BitVec Format.binary64.mantissaBitsWithoutImplicit) :
    unpackSign (packComponents Format.binary64 s e m) = s.toBitVec := by
  ext i hi
  simp only [unpackSign, packComponents, BitVec.extractLsb]
  grind

theorem positive_unpack {b : Bits} (hsign : unpackSign b = 0#1)
    (hnan : unpackExponent b = -1#_ → unpackMantissa b = 0#_) :
    Positive (UnpackedFloat.unpack Format.binary64 b) := by
  have hpos : Sign.ofBitVec (unpackSign b) = .positive := by rw [hsign]; rfl
  rw [UnpackedFloat.unpack]
  dsimp only
  rw [hpos]
  split
  · rename_i hexp
    split
    · exact .infinity
    · rename_i hman
      exact absurd (hnan hexp) hman
  · split
    · split
      · exact .zero
      · exact .finite _ _ _
    · exact .finite _ _ _

/-- A pattern with a positive sign bit is positive, unless it is not a number. -/
theorem positive_packComponents {e : BitVec Format.binary64.exponentBits}
    {m : BitVec Format.binary64.mantissaBitsWithoutImplicit} (h : e = -1#_ → m = 0#_) :
    Positive (UnpackedFloat.unpack Format.binary64
      (packComponents Format.binary64 .positive e m)) := by
  refine positive_unpack (unpackSign_packComponents _ _ _) ?_
  rw [unpackExponent_packComponents, unpackMantissa_packComponents]
  exact h

theorem Positive.unpack_pack {x : UnpackedFloat} (hx : Positive x) :
    Positive (UnpackedFloat.unpack Format.binary64 (UnpackedFloat.pack Format.binary64 x)) := by
  cases hx with
  | infinity => exact positive_packComponents fun _ => rfl
  | zero => exact positive_packComponents fun _ => rfl
  | finite m e h =>
    rw [UnpackedFloat.pack]
    dsimp only
    split
    · exact positive_packComponents fun _ => rfl
    · rename_i hbias
      split
      · refine positive_packComponents fun hexp => ?_
        -- The exponent field of a number is not the one of infinity.
        have hmax : _ % 2 ^ 11 = 2047 := congrArg BitVec.toNat hexp
        omega
      · refine positive_packComponents fun hexp => ?_
        cases hexp

theorem unpack_zero : (0 : Float).toModel.unpack = .zero .positive := by rfl

theorem nonneg_zero : Nonneg 0 := by
  rw [Nonneg, unpack_zero]
  exact .zero

theorem nonneg_toFloat (n : UInt64) : Nonneg n.toFloat :=
  (positive_normalize _ (Int.natCast_nonneg _) _).unpack_pack

theorem Nonneg.le {f : Float} (hf : Nonneg f) : 0 ≤ f := by
  have hmodel : (0 : Float).toModel.unpack.le f.toModel.unpack = true := by
    rw [unpack_zero]
    unfold Nonneg at hf
    generalize f.toModel.unpack = x at hf ⊢
    cases hf <;> rfl
  exact decide_eq_true hmodel

/-- **A sum with what is at least zero stays nonnegative.** -/
theorem Nonneg.add_of_le {f g : Float} (hf : Nonneg f) (hg : 0 ≤ g) : Nonneg (f + g) := by
  have hmodel : (0 : Float).toModel ≤ g.toModel := of_decide_eq_true hg
  have hunpack : (0 : Float).toModel.unpack.le g.toModel.unpack = true := hmodel
  rw [unpack_zero] at hunpack
  exact (Positive.add_of_le _ hf hunpack).unpack_pack

/-- **A nonnegative double is not below zero.** -/
theorem Nonneg.not_lt_zero {f : Float} (hf : Nonneg f) : ¬ f < 0 := by
  intro hlt
  have hmodel : f.toModel < (0 : Float).toModel := of_decide_eq_true hlt
  have hunpack : f.toModel.unpack.lt (0 : Float).toModel.unpack = true := hmodel
  rw [unpack_zero] at hunpack
  unfold Nonneg at hf
  generalize f.toModel.unpack = x at hf hunpack
  cases hf <;> cases hunpack

/-! ### Doubling -/

theorem ofBitVec_toBitVec (s : Sign) : Sign.ofBitVec s.toBitVec = s := by
  cases s <;> rfl

/-- A normal double, from its fields. -/
theorem unpack_normal {b : Bits} {s : Sign} {m : ℕ} {e : ℤ} (hpos : 0 < m)
    (hexp : unpackExponent b ≠ -1#_) (hsub : unpackExponent b ≠ 0#_)
    (hsign : unpackSign b = s.toBitVec) (hm : (1#1 ++ unpackMantissa b).toNat = m)
    (he : (unpackExponent b).toNat - 1075 = e) :
    UnpackedFloat.unpack Format.binary64 b = .finite s m e hpos := by
  rw [UnpackedFloat.unpack]
  dsimp only
  rw [if_neg hexp, if_neg hsub]
  congr
  · rw [hsign, ofBitVec_toBitVec]

/-- A normal double is unpacked as it was packed. -/
theorem unpack_pack_normal {s : Sign} {m : ℕ} {e : ℤ} (hpos : 0 < m) (hm : 2 ^ 52 ≤ m)
    (hm' : m < 2 ^ 53) (he : -1074 ≤ e) (he' : e ≤ 971) :
    UnpackedFloat.unpack Format.binary64 (UnpackedFloat.pack Format.binary64 (.finite s m e hpos))
      = .finite s m e hpos := by
  obtain ⟨k, rfl⟩ : ∃ k : ℕ, e = k - 1075 := ⟨(e + 1075).toNat, by omega⟩
  have hlog : m.log2 = 52 := (Nat.log2_eq_iff (by omega)).mpr ⟨hm, hm'⟩
  have hbias : ((k - 1075 : ℤ) + Format.binary64.exponentBias + (52 : Nat)).toNat = k := by
    show ((k - 1075 : ℤ) + 1023 + 52).toNat = k
    omega
  have hpack : UnpackedFloat.pack Format.binary64 (.finite s m (k - 1075) hpos)
      = packComponents Format.binary64 s (BitVec.ofNat 11 k) (BitVec.ofNat 52 m) := by
    rw [UnpackedFloat.pack]
    dsimp only
    rw [hbias, if_neg (by show ¬ 2 ^ 11 ≤ k + 1; omega), hlog,
      if_pos (show 52 + 1 = Format.binary64.mantissaBits from rfl)]
  have hk : (BitVec.ofNat 11 k).toNat = k := by
    rw [BitVec.toNat_ofNat]
    omega
  rw [hpack]
  refine unpack_normal hpos ?_ ?_ (unpackSign_packComponents _ _ _) ?_ ?_
  · rw [unpackExponent_packComponents]
    intro h
    have hmax : (BitVec.ofNat 11 k).toNat = 2047 := congrArg BitVec.toNat h
    omega
  · rw [unpackExponent_packComponents]
    intro h
    have hzero : (BitVec.ofNat 11 k).toNat = 0 := congrArg BitVec.toNat h
    omega
  · rw [unpackMantissa_packComponents, toNat_implicit, BitVec.toNat_ofNat]
    omega
  · rw [unpackExponent_packComponents, hk]

/-- Twice a normal number is the number with the next exponent. -/
theorem add_self_normal {m : ℕ} {e : ℤ} (hpos : 0 < m) (hm : 2 ^ 52 ≤ m)
    (hm' : m < 2 ^ 53) (he : -1075 ≤ e) :
    UnpackedFloat.add Format.binary64 (.finite .positive m e hpos) (.finite .positive m e hpos)
      = .finite .positive m (e + 1) hpos := by
  have hlog : m.log2 = 52 := (Nat.log2_eq_iff (by omega)).mpr ⟨hm, hm'⟩
  have hlog2 : (m + m).log2 = 53 := (Nat.log2_eq_iff (by omega)).mpr (by omega)
  have hdec : decreaseExponent m e (min e e) = (m, e) := by simp [decreaseExponent]
  unfold UnpackedFloat.add
  dsimp only
  rw [hdec, min_self]
  have happly : Sign.apply .positive m + Sign.apply .positive m = ((m + m : ℕ) : ℤ) := by
    simp [Sign.apply]
  have hcmp : compare ((m + m : ℕ) : ℤ) 0 = .gt := Int.compare_eq_gt.mpr (by omega)
  have htarget : Format.binary64.targetExponent (totalExponent (m + m) e) = e + 1 := by
    show max (((m + m).log2 : ℤ) + 1 + e - 53) (-1074) = e + 1
    rw [hlog2]
    omega
  have htarget' : Format.binary64.targetExponent (totalExponent m (e + 1)) = e + 1 := by
    show max ((m.log2 : ℤ) + 1 + (e + 1) - 53) (-1074) = e + 1
    rw [hlog]
    omega
  have hdec' : decreaseExponent (m + m) e (e + 1) = (m + m, e) := by simp [decreaseExponent]
  have hshift : shiftToTargetExponent Format.binary64 (m + m) e .exact
      = (⟨m, false, false⟩, e + 1) := by
    unfold shiftToTargetExponent shiftToExponent
    dsimp only
    rw [htarget, show (e + 1 - e).toNat = 1 by omega]
    show (ExtendedMantissa.shiftRightOne ⟨m + m, false, false⟩, e + 1) = _
    have hhalf : (m + m) / 2 = m := by omega
    have heven : (m + m) % 2 = 0 := by omega
    simp [ExtendedMantissa.shiftRightOne, hhalf, heven]
  have hshift' : shiftToTargetExponent Format.binary64 m (e + 1) .exact
      = (⟨m, false, false⟩, e + 1) := by
    unfold shiftToTargetExponent shiftToExponent
    dsimp only
    rw [htarget', sub_self]
    simp [ExtendedMantissa.ofMantissaAndAccuracy]
    rfl
  have hround : UnpackedFloat.round Format.binary64 .positive (m + m) e
      = .finite .positive m (e + 1) hpos := by
    unfold UnpackedFloat.round
    dsimp only
    rw [htarget, hdec']
    unfold roundWithAccuracy
    dsimp only
    rw [hshift]
    show (match shiftToTargetExponent Format.binary64 m (e + 1) .exact with
      | (em, e') => if h : em.mantissa = 0 then UnpackedFloat.zero .positive
        else .finite .positive em.mantissa e' (Nat.pos_of_ne_zero h)) = _
    rw [hshift']
    exact dif_neg (Nat.ne_of_gt hpos)
  unfold UnpackedFloat.normalize
  dsimp only
  rw [happly, hcmp]
  dsimp only
  rw [Int.toNat_natCast, hround]
/-- The power of two, as long as there is a double for it; `Infinity` from `2 ^ 1024` on. -/
def twoPow (k : ℕ) : Float := .ofModel (.pack (.finite .positive (2 ^ 52) (k - 52) (by decide)))

theorem unpack_twoPow {k : ℕ} (hk : k ≤ 1023) :
    (twoPow k).toModel.unpack = .finite .positive (2 ^ 52) (k - 52) (by decide) :=
  unpack_pack_normal (by decide) le_rfl (by decide) (by omega) (by omega)

theorem nonneg_twoPow {k : ℕ} (hk : k ≤ 1023) : Nonneg (twoPow k) := by
  rw [Nonneg, unpack_twoPow hk]
  exact .finite _ _ _

theorem isFinite_twoPow {k : ℕ} (hk : k ≤ 1023) : (twoPow k).isFinite = true := by
  show (twoPow k).toModel.unpack.isFinite = true
  rw [unpack_twoPow hk]
  rfl

/-- **Doubling a power of two gives the next one.** -/
theorem twoPow_add_self {k : ℕ} (hk : k ≤ 1023) : twoPow k + twoPow k = twoPow (k + 1) := by
  show Float.ofModel (.pack (UnpackedFloat.add Format.binary64 (twoPow k).toModel.unpack
    (twoPow k).toModel.unpack)) = _
  rw [unpack_twoPow hk, add_self_normal _ le_rfl (by decide) (by omega)]
  unfold twoPow
  congr 3
  omega

end Binary64
