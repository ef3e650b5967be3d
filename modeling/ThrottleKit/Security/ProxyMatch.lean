import ThrottleKit.Security.Ipv6Key

/-!
# Matching an address against an allowlist

An entry is an address, or an address and the length of a prefix in decimal. Brackets, a zone and
white space around the address of an entry are taken off first. The length belongs to the family of
the address after normalisation: an entry in the notation of IPv6 that is IPv4-mapped has 96 bits in
front of those of the IPv4 address.

The length is converted as JavaScript converts a string to a number, and so more is a length than
decimal digits: an empty text is zero, and the entry then matches every address of its family.

## Main definitions

* `Names`, `EntryBits`, `SameBits`, `Matches` — what an entry is to match
* `Misread` — a malformed text from which an address or a length is read, that then match

## Main results

* `ipv4InCidr_iff`, `ipv6InCidr_iff` — the masks compare the bits of the prefix
* `integer_of_decimal` — decimal digits are converted to the number they stand for
* `addrMatchesEntry_agrees_iff` — an entry matches what it is to match, unless it is misread
-/

namespace ThrottleKit.Security

open TextCut

/-! ### What an entry is to match -/

/-- The address of eight groups after normalisation. -/
def unmapped (g : List ℕ) : Normalized :=
  match ipv4MappedTail g with
  | some mapped => .v4 mapped
  | none => .v6 g

/-- A text is an address: IPv4 in dotted decimal, or IPv6, perhaps with a zone. -/
def Names (text : List Char) (a : Normalized) : Prop :=
  (∃ o, Dotted text o ∧ a = .v4 o) ∨ ∃ g, Denotes (stripZone text) g ∧ a = unmapped g

/-- The number of bits of an address. -/
def Normalized.width : Normalized → ℕ
  | .v4 _ => 32
  | .v6 _ => 128

/-- Bit `i` of an IPv4 address, from the left. -/
def octetBit (o : List ℕ) (i : ℕ) : Bool := (o.getD (i / 8) 0).testBit (7 - i % 8)

/-- Two addresses of one family have the first bits in common. -/
def SameBits (bits : ℕ) : Normalized → Normalized → Prop
  | .v4 a, .v4 b => ∀ i < bits, octetBit a i = octetBit b i
  | .v6 a, .v6 b => Agree bits a b
  | _, _ => False

/-- A number in decimal digits. -/
def IsDecimal (text : List Char) : Prop := text ≠ [] ∧ text.all Char.isDigit

/-- The number that decimal digits stand for. -/
def decimalValue (text : List Char) : ℕ := Nat.ofDigitChars 10 text 0

/-- The address part of an entry. -/
def entryHost (entry : List Char) : List Char :=
  stripHost (((cut '/' entry).map Prod.fst).getD entry)

/-- The text of the length, if there is one. -/
def entryPrefix (entry : List Char) : Option (List Char) := (cut '/' entry).map Prod.snd

/-- The bits in front of an IPv4 address in the notation of IPv6. -/
def mappingBits (host : List Char) : Normalized → ℕ
  | .v4 _ => if ':' ∈ host then 96 else 0
  | .v6 _ => 0

/-- The length of the prefix that an entry asks for: all bits, or a decimal number in the range of
the family. -/
def EntryBits (host : List Char) (e : Normalized) (text : Option (List Char)) (bits : ℕ) : Prop :=
  match text with
  | none => bits = e.width
  | some text => IsDecimal text ∧ decimalValue text = mappingBits host e + bits ∧ bits ≤ e.width

/-- What an entry is to match. -/
def Matches (addr entry : List Char) : Prop :=
  ∃ a e bits, Names addr a ∧ Names (entryHost entry) e ∧
    EntryBits (entryHost entry) e (entryPrefix entry) bits ∧ SameBits bits a e

/-! ### Masks -/

theorem testBit_eq_false {a j : ℕ} (ha : a ≤ 255) (hj : 8 ≤ j) : a.testBit j = false := by
  refine Nat.testBit_lt_two_pow (ha.trans_lt ?_)
  calc 255 < 2 ^ 8 := by decide
    _ ≤ 2 ^ j := Nat.pow_le_pow_right (by decide) hj

/-- One octet among the 32 bits. -/
theorem getLsbD_octet {a s : ℕ} (ha : a ≤ 255) (hs : s + 8 ≤ 32) (j : ℕ) :
    (BitVec.ofNat 32 a <<< s).getLsbD j = (decide (s ≤ j ∧ j < s + 8) && a.testBit (j - s)) := by
  rw [BitVec.getLsbD_shiftLeft, BitVec.getLsbD_ofNat]
  by_cases hj : s ≤ j ∧ j < s + 8
  · have hlt : j < 32 := by omega
    have hlt' : j - s < 32 := by omega
    have hle : ¬ j < s := by omega
    rw [decide_eq_true hj, decide_eq_true hlt, decide_eq_true hlt', decide_eq_false hle]
    rfl
  · rw [decide_eq_false hj, Bool.false_and]
    by_cases hlow : j < s
    · rw [decide_eq_true hlow, Bool.not_true, Bool.and_false, Bool.false_and]
    · rw [testBit_eq_false ha (by omega), Bool.and_false, Bool.and_false]

/-- Bit `31 - i` of the 32 bits is bit `i` of the octets. -/
theorem getLsbD_ipInt {o : List ℕ} (hlen : o.length = 4) (hle : ∀ x ∈ o, x ≤ 255) {i : ℕ}
    (hi : i < 32) : (ipInt o).getLsbD (31 - i) = octetBit o i := by
  match o, hlen with
  | [a, b, c, d], _ =>
    have ha := hle a (by simp)
    have hb := hle b (by simp)
    have hc := hle c (by simp)
    have hd := hle d (by simp)
    have hlast : BitVec.ofNat 32 d = BitVec.ofNat 32 d <<< 0 := (BitVec.shiftLeft_zero _).symm
    have hquot : i / 8 = 0 ∨ i / 8 = 1 ∨ i / 8 = 2 ∨ i / 8 = 3 := by omega
    rw [ipInt, octetBit]
    simp only [List.getD_cons_zero, List.getD_cons_succ]
    rw [hlast, BitVec.getLsbD_or, BitVec.getLsbD_or, BitVec.getLsbD_or,
      getLsbD_octet ha (by decide), getLsbD_octet hb (by decide), getLsbD_octet hc (by decide),
      getLsbD_octet hd (by decide)]
    rcases hquot with h | h | h | h
    · rw [h, decide_eq_true (by omega), decide_eq_false (by omega), decide_eq_false (by omega),
        decide_eq_false (by omega), show 31 - i - 24 = 7 - i % 8 by omega]
      simp
    · rw [h, decide_eq_false (by omega), decide_eq_true (by omega), decide_eq_false (by omega),
        decide_eq_false (by omega), show 31 - i - 16 = 7 - i % 8 by omega]
      simp
    · rw [h, decide_eq_false (by omega), decide_eq_false (by omega), decide_eq_true (by omega),
        decide_eq_false (by omega), show 31 - i - 8 = 7 - i % 8 by omega]
      simp
    · rw [h, decide_eq_false (by omega), decide_eq_false (by omega), decide_eq_false (by omega),
        decide_eq_true (by omega), show 31 - i - 0 = 7 - i % 8 by omega]
      simp

/-- The mask of a prefix has its bits in front. -/
theorem getLsbD_mask {bits j : ℕ} (hbits : 0 < bits) (hj : j < 32) :
    (if 32 ≤ bits then BitVec.allOnes 32 else ~~~(BitVec.allOnes 32 >>> bits)).getLsbD j
      = decide (32 - bits ≤ j) := by
  split
  · rw [BitVec.getLsbD_allOnes, decide_eq_true hj, decide_eq_true (by omega)]
  · rw [BitVec.getLsbD_not, BitVec.getLsbD_ushiftRight, BitVec.getLsbD_allOnes, decide_eq_true hj,
      Bool.true_and, ← decide_not]
    exact decide_eq_decide.mpr (by omega)

/-- **The masks of IPv4 compare the bits of the prefix.** -/
theorem ipv4InCidr_iff {a b : List ℕ} (ha : a.length = 4 ∧ ∀ x ∈ a, x ≤ 255)
    (hb : b.length = 4 ∧ ∀ x ∈ b, x ≤ 255) {bits : ℕ} (hbits : bits ≤ 32) :
    ipv4InCidr a b bits = true ↔ ∀ i < bits, octetBit a i = octetBit b i := by
  rw [ipv4InCidr]
  split
  · rename_i hzero
    rw [hzero]
    exact iff_of_true rfl fun i hi => absurd hi (Nat.not_lt_zero i)
  · rename_i hpos
    have hmask : ∀ j < 32, _ := fun j hj => getLsbD_mask (Nat.pos_of_ne_zero hpos) hj
    dsimp only
    generalize (if 32 ≤ bits then BitVec.allOnes 32 else ~~~(BitVec.allOnes 32 >>> bits)) = mask
      at hmask ⊢
    rw [beq_iff_eq]
    constructor
    · intro heq i hi
      have hbit := congrArg (fun x : BitVec 32 => x.getLsbD (31 - i)) heq
      rw [BitVec.getLsbD_and, BitVec.getLsbD_and, hmask _ (by omega), decide_eq_true (by omega),
        Bool.and_true, Bool.and_true, getLsbD_ipInt ha.1 ha.2 (by omega),
        getLsbD_ipInt hb.1 hb.2 (by omega)] at hbit
      exact hbit
    · intro hagree
      refine BitVec.eq_of_getLsbD_eq fun j hj => ?_
      rw [BitVec.getLsbD_and, BitVec.getLsbD_and, hmask j hj]
      by_cases hkept : 32 - bits ≤ j
      · have hbit := hagree (31 - j) (by omega)
        rw [← getLsbD_ipInt ha.1 ha.2 (by omega), ← getLsbD_ipInt hb.1 hb.2 (by omega),
          show 31 - (31 - j) = j by omega] at hbit
        rw [hbit]
      · rw [decide_eq_false hkept, Bool.and_false, Bool.and_false]

/-- **The masks of IPv6 compare the bits of the prefix.** -/
theorem ipv6InCidr_iff {g h : List ℕ} (hg : IsGroups g) (hh : IsGroups h) (bits : ℕ) :
    ipv6InCidr g h bits = true ↔ Agree bits g h := by
  rw [ipv6InCidr, beq_iff_eq, maskIpv6_eq_iff hg hh]

/-! ### Lengths in decimal -/

theorem roundEven_gt (x : ℚ) : x - 1 < Redis.roundEven x := by
  rw [Redis.roundEven]
  split
  · push_cast
    linarith [Int.lt_floor_add_one ((x + 1) / 2)]
  · linarith [Int.lt_floor_add_one (x + 1 / 2)]

/-- A whole number below `2 ^ 53` is a double. -/
theorem toDouble_natCast {n : ℕ} (h : n < 2 ^ 53) : toDouble n = some (n : ℚ) := by
  rw [toDouble]
  split
  · rename_i hzero
    rw [hzero]
  · rename_i hne
    have hlog : Int.log 2 |(n : ℚ)| < 53 := by
      have hlt : |(n : ℚ)| < ((2 : ℕ) : ℚ) ^ (53 : ℤ) := by
        rw [Nat.abs_cast]
        exact_mod_cast h
      exact (Int.lt_zpow_iff_log_lt (by norm_num) (abs_pos.mpr hne)).mp hlt
    obtain ⟨k, hk⟩ : ∃ k : ℕ, max (Int.log 2 |(n : ℚ)| - 52) (-1074) = -(k : ℤ) :=
      ⟨(-max (Int.log 2 |(n : ℚ)| - 52) (-1074)).toNat, by omega⟩
    have hdiv : (n : ℚ) / (2 : ℚ) ^ (-(k : ℤ)) = ((n * 2 ^ k : ℤ) : ℚ) := by
      rw [zpow_neg, div_inv_eq_mul, zpow_natCast]
      push_cast
      rfl
    have hround : (Redis.roundEven ((n : ℚ) / (2 : ℚ) ^ (-(k : ℤ))) : ℚ) * (2 : ℚ) ^ (-(k : ℤ))
        = n := by
      rw [hdiv, Redis.roundEven_intCast, ← hdiv]
      exact div_mul_cancel₀ _ (zpow_ne_zero _ (by norm_num))
    have hsmall : |(n : ℚ)| < 2 ^ 1024 := by
      rw [Nat.abs_cast]
      have hlt : (n : ℚ) < 2 ^ 53 := by exact_mod_cast h
      exact hlt.trans (pow_lt_pow_right₀ (by norm_num) (by norm_num))
    rw [hk]
    dsimp only
    rw [hround, if_pos hsmall]

/-- A large number stays large. -/
theorem toDouble_large {n : ℕ} (h : 2 ^ 53 ≤ n) {y : ℚ} (hy : toDouble n = some y) : 128 < y := by
  have hpos : (0 : ℚ) < n := by exact_mod_cast (show 0 < 2 ^ 53 by norm_num).trans_le h
  rw [toDouble, if_neg hpos.ne'] at hy
  dsimp only at hy
  split at hy
  · rw [← Option.some.inj hy, abs_of_pos hpos]
    have hlog : (53 : ℤ) ≤ Int.log 2 (n : ℚ) := by
      refine (Int.zpow_le_iff_le_log (by norm_num) hpos).mp ?_
      exact_mod_cast h
    have hmax : max (Int.log 2 (n : ℚ) - 52) (-1074) = Int.log 2 (n : ℚ) - 52 :=
      max_eq_left (by omega)
    rw [hmax]
    have hunit : (2 : ℚ) ≤ (2 : ℚ) ^ (Int.log 2 (n : ℚ) - 52) := by
      calc (2 : ℚ) = (2 : ℚ) ^ (1 : ℤ) := (zpow_one 2).symm
        _ ≤ (2 : ℚ) ^ (Int.log 2 (n : ℚ) - 52) := zpow_le_zpow_right₀ (by norm_num) (by omega)
    have hquot : (2 : ℚ) ^ 52 ≤ n / (2 : ℚ) ^ (Int.log 2 (n : ℚ) - 52) := by
      rw [le_div_iff₀ (by positivity)]
      calc (2 : ℚ) ^ 52 * (2 : ℚ) ^ (Int.log 2 (n : ℚ) - 52)
          = (2 : ℚ) ^ (Int.log 2 (n : ℚ)) := by
            rw [← zpow_natCast, ← zpow_add₀ (by norm_num)]
            congr 1
            push_cast
            omega
        _ ≤ n := by exact_mod_cast Int.zpow_log_le_self (b := 2) (by norm_num) hpos
    have hround := roundEven_gt (n / (2 : ℚ) ^ (Int.log 2 (n : ℚ) - 52))
    have hlarge : (64 : ℚ) < Redis.roundEven (n / (2 : ℚ) ^ (Int.log 2 (n : ℚ) - 52)) := by
      refine lt_trans ?_ hround
      linarith [show (65 : ℚ) < (2 : ℚ) ^ 52 by norm_num]
    nlinarith
  · cases hy

theorem isHexDigit_of_isDigit {c : Char} (h : c.isDigit = true) : isHexDigit c = true := by
  rw [isHexDigit, h]
  rfl

/-- Decimal digits are a literal. -/
theorem unsignedLiteral_of_decimal {text : List Char} (h : IsDecimal text) :
    unsignedLiteral text = some (decimalValue text : ℚ) := by
  obtain ⟨hne, hdigits⟩ := h
  have hall : ∀ c ∈ text, c.isDigit = true := List.all_eq_true.mp hdigits
  have htake : text.takeWhile Char.isDigit = text := List.takeWhile_eq_self_iff.mpr hall
  have hdrop : text.dropWhile Char.isDigit = [] := List.dropWhile_eq_nil_iff.mpr hall
  rw [unsignedLiteral, htake, hdrop]
  simp [hne, exponentPart, decimalValue]

/-- **Decimal digits are converted to the number they stand for.** -/
theorem Number_of_decimal {text : List Char} (h : IsDecimal text) :
    Number text = toDouble (decimalValue text : ℚ) := by
  have hall : ∀ c ∈ text, c.isDigit = true := List.all_eq_true.mp h.2
  have htrim : trim text = text := trim_eq_self fun c hc =>
    isSpace_eq_false (.inl (isHexDigit_of_isDigit (hall c hc)))
  have hliteral : (unsignedLiteral text).bind toDouble = toDouble (decimalValue text : ℚ) := by
    rw [unsignedLiteral_of_decimal h, Option.bind_some]
  have hnot : ∀ {c : Char}, c.isDigit = false → c ∉ text := fun hc hmem => by
    rw [hall _ hmem] at hc
    cases hc
  rw [Number, htrim]
  split
  · exact absurd rfl h.1
  · exact absurd (List.mem_cons_of_mem _ List.mem_cons_self) (hnot (c := 'x') rfl)
  · exact absurd (List.mem_cons_of_mem _ List.mem_cons_self) (hnot (c := 'X') rfl)
  · exact absurd (List.mem_cons_of_mem _ List.mem_cons_self) (hnot (c := 'o') rfl)
  · exact absurd (List.mem_cons_of_mem _ List.mem_cons_self) (hnot (c := 'O') rfl)
  · exact absurd (List.mem_cons_of_mem _ List.mem_cons_self) (hnot (c := 'b') rfl)
  · exact absurd (List.mem_cons_of_mem _ List.mem_cons_self) (hnot (c := 'B') rfl)
  · exact absurd List.mem_cons_self (hnot (c := '+') rfl)
  · exact absurd List.mem_cons_self (hnot (c := '-') rfl)
  · exact hliteral

/-- Up to 128 the integer that is read from decimal digits is their value. -/
theorem integer_of_decimal {text : List Char} (h : IsDecimal text) {p : ℤ} (hp : p ≤ 128) :
    integer text = some p ↔ (decimalValue text : ℤ) = p := by
  rw [integer, Number_of_decimal h]
  rcases lt_or_ge (decimalValue text) (2 ^ 53) with hsmall | hlarge
  · rw [toDouble_natCast hsmall, Option.bind_some, Int.floor_natCast, Int.cast_natCast, if_pos rfl,
      Option.some.injEq]
  · refine iff_of_false (fun hread => ?_) (by omega)
    obtain ⟨y, hy, hread⟩ := Option.bind_eq_some_iff.mp hread
    split at hread
    · rename_i hwhole
      have hgt := toDouble_large hlarge hy
      rw [← hwhole, Option.some.inj hread] at hgt
      have hgt' : (128 : ℤ) < p := by exact_mod_cast hgt
      omega
    · cases hread

/-! ### What is read -/

/-- The length of the prefix that is read from an entry. -/
def readBits (host : List Char) (e : Normalized) (text : Option (List Char)) : Option ℕ :=
  match text with
  | none => some e.width
  | some text =>
    (integer text).bind fun p =>
      if p < 0 ∨ p - mappingBits host e < 0 ∨ e.width < p - mappingBits host e then none
      else some (p - mappingBits host e).toNat

/-- What normalisation leaves: four octets, or eight groups. -/
def Normalized.Sound : Normalized → Prop
  | .v4 o => o.length = 4 ∧ ∀ x ∈ o, x ≤ 255
  | .v6 g => IsGroups g

theorem sound_unmapped {g : List ℕ} (h : IsGroups g) : (unmapped g).Sound := by
  rw [unmapped]
  rcases ipv4MappedTail_eq h with ⟨-, m, hm, hlen, hle, -⟩ | ⟨-, hnone⟩
  · rw [hm]
    exact ⟨hlen, hle⟩
  · rw [hnone]
    exact h

theorem normalize_eq_some {text : List Char} {a : Normalized} (h : normalize text = some a) :
    (∃ o, parseIpv4 text = some o ∧ a = .v4 o) ∨
      parseIpv4 text = none ∧ ∃ g, parseIpv6 text = some g ∧ a = unmapped g := by
  rw [normalize] at h
  split at h
  · rename_i o ho
    exact .inl ⟨o, ho, (Option.some.inj h).symm⟩
  · rename_i hnone
    obtain ⟨g, hg, heq⟩ := Option.map_eq_some_iff.mp h
    exact .inr ⟨hnone, g, hg, heq.symm⟩

theorem sound_of_normalize {text : List Char} {a : Normalized} (h : normalize text = some a) :
    a.Sound := by
  rcases normalize_eq_some h with ⟨o, ho, rfl⟩ | ⟨-, g, hg, rfl⟩
  · obtain ⟨hlen, hle, -⟩ := parseIpv4_eq_some_iff.mp ho
    exact ⟨hlen, hle⟩
  · exact sound_unmapped (isGroups_of_parse hg)

/-- An IPv4 address against an entry for IPv4. -/
theorem reads_v4_iff {target trusted : List ℕ} (ht : (Normalized.v4 target).Sound)
    (he : (Normalized.v4 trusted).Sound) {host text : List Char} {p : ℤ}
    (hp : integer text = some p) :
    (if p < 0 then false
      else
        let p := if ':' ∈ host then p - 96 else p
        if p < 0 ∨ 32 < p then false else ipv4InCidr target trusted p.toNat) = true ↔
      ∃ bits, readBits host (.v4 trusted) (some text) = some bits ∧
        SameBits bits (.v4 target) (.v4 trusted) := by
  have hshift : p - (mappingBits host (.v4 trusted) : ℤ) = if ':' ∈ host then p - 96 else p := by
    rw [mappingBits]
    split
    · rfl
    · exact sub_zero p
  have hwidth : (((Normalized.v4 trusted).width : ℕ) : ℤ) = 32 := rfl
  rw [readBits]
  dsimp only
  rw [hp, Option.bind_some, hshift, hwidth]
  generalize (if ':' ∈ host then p - 96 else p) = q
  by_cases hneg : p < 0
  · rw [if_pos hneg, if_pos (.inl hneg)]
    exact iff_of_false Bool.false_ne_true (by simp)
  · by_cases hrange : q < 0 ∨ 32 < q
    · rw [if_neg hneg, if_pos hrange, if_pos (.inr hrange)]
      exact iff_of_false Bool.false_ne_true (by simp)
    · have hle : q.toNat ≤ 32 := by omega
      rw [if_neg hneg, if_neg hrange, if_neg (not_or.mpr ⟨hneg, hrange⟩),
        ipv4InCidr_iff ht he hle]
      simp [SameBits]

/-- An IPv6 address against an entry for IPv6. -/
theorem reads_v6_iff {target trusted : List ℕ} (ht : (Normalized.v6 target).Sound)
    (he : (Normalized.v6 trusted).Sound) {host text : List Char} {p : ℤ}
    (hp : integer text = some p) :
    (if p < 0 ∨ 128 < p then false else ipv6InCidr target trusted p.toNat) = true ↔
      ∃ bits, readBits host (.v6 trusted) (some text) = some bits ∧
        SameBits bits (.v6 target) (.v6 trusted) := by
  have hshift : p - (mappingBits host (.v6 trusted) : ℤ) = p := sub_zero p
  have hwidth : (((Normalized.v6 trusted).width : ℕ) : ℤ) = 128 := rfl
  rw [readBits]
  rw [hp, Option.bind_some, hshift, hwidth]
  by_cases hrange : p < 0 ∨ 128 < p
  · rw [if_pos hrange, if_pos (by omega)]
    exact iff_of_false Bool.false_ne_true (by simp)
  · rw [if_neg hrange, if_neg (by omega), ipv6InCidr_iff ht he]
    simp [SameBits]

/-- **An entry matches just where an address and a length are read, and the bits are the same.** -/
theorem addrMatchesEntry_iff {addr entry : List Char} :
    addrMatchesEntry addr entry = true ↔
      ∃ a e bits, normalize addr = some a ∧ normalize (entryHost entry) = some e ∧
        readBits (entryHost entry) e (entryPrefix entry) = some bits ∧ SameBits bits a e := by
  rw [addrMatchesEntry, ← entryHost, ← entryPrefix]
  cases hA : normalize addr with
  | none => exact iff_of_false Bool.false_ne_true (by simp)
  | some a =>
    cases hE : normalize (entryHost entry) with
    | none => exact iff_of_false (by cases a <;> simp) (by simp)
    | some e =>
      have hreads : (∃ a' e' bits, some a = some a' ∧ some e = some e' ∧
          readBits (entryHost entry) e' (entryPrefix entry) = some bits ∧ SameBits bits a' e') ↔
          ∃ bits, readBits (entryHost entry) e (entryPrefix entry) = some bits ∧
            SameBits bits a e := by simp
      have ha := sound_of_normalize hA
      have he := sound_of_normalize hE
      rw [hreads]
      match a, e with
      | .v4 target, .v4 trusted =>
        cases entryPrefix entry with
        | none =>
          refine (ipv4InCidr_iff ha he le_rfl).trans ?_
          simp [readBits, Normalized.width, SameBits]
        | some text =>
          dsimp only
          cases hp : integer text with
          | none => exact iff_of_false Bool.false_ne_true (by simp [readBits, hp])
          | some p => exact reads_v4_iff ha he hp
      | .v6 target, .v6 trusted =>
        cases entryPrefix entry with
        | none =>
          refine (ipv6InCidr_iff ha he 128).trans ?_
          simp [readBits, Normalized.width, SameBits]
        | some text =>
          dsimp only
          cases hp : integer text with
          | none => exact iff_of_false Bool.false_ne_true (by simp [readBits, hp])
          | some p => exact reads_v6_iff ha he hp
      | .v4 target, .v6 trusted => exact iff_of_false Bool.false_ne_true (by simp [SameBits])
      | .v6 target, .v4 trusted => exact iff_of_false Bool.false_ne_true (by simp [SameBits])

/-! ### Texts that are misread -/

/-- The texts are well formed as far as they are texts of addresses and lengths at all. -/
structure WellFormed (addr entry : List Char) : Prop where
  addr : ¬ Stray (stripZone addr)
  host : ¬ Stray (stripZone (entryHost entry))
  bits : ∀ text ∈ entryPrefix entry, IsDecimal text

/-- A text is malformed, but two addresses and a length are read that match. -/
def Misread (addr entry : List Char) : Prop :=
  ¬ WellFormed addr entry ∧
    ∃ a e bits, normalize addr = some a ∧ normalize (entryHost entry) = some e ∧
      readBits (entryHost entry) e (entryPrefix entry) = some bits ∧ SameBits bits a e

theorem not_stray_of_dotted {text : List Char} {o : List ℕ} (h : Dotted text o) :
    ¬ Stray (stripZone text) := by
  rw [stripZone_eq_self (h.not_mem rfl (by decide))]
  intro hstray
  have hcolon : ':' ∉ text := h.not_mem rfl (by decide)
  cases hstray <;> simp at hcolon

theorem Names.not_stray {text : List Char} {a : Normalized} (h : Names text a) :
    ¬ Stray (stripZone text) := by
  rcases h with ⟨o, ho, -⟩ | ⟨g, hg, -⟩
  · exact not_stray_of_dotted ho
  · exact fun hstray => hstray.not_denotes g hg

/-- **A text that is an address is read as that address**, and others are only if they are stray. -/
theorem normalize_iff {text : List Char} {a : Normalized} (h : ¬ Stray (stripZone text)) :
    normalize text = some a ↔ Names text a := by
  have hagrees := parse_agrees h
  constructor
  · intro hread
    rcases normalize_eq_some hread with ⟨o, ho, rfl⟩ | ⟨-, g, hg, rfl⟩
    · exact .inl ⟨o, parseIpv4_eq_some_iff.mp ho, rfl⟩
    · exact .inr ⟨g, (hagrees g).mp hg, rfl⟩
  · rintro (⟨o, ho, rfl⟩ | ⟨g, hg, rfl⟩)
    · rw [normalize, parseIpv4_eq_some_iff.mpr ho]
    · have hv4 : parseIpv4 text = none := by
        refine Option.eq_none_iff_forall_ne_some.mpr fun o ho => ?_
        have hdotted := parseIpv4_eq_some_iff.mp ho
        rw [stripZone_eq_self (hdotted.not_mem rfl (by decide))] at hg
        rw [hg.parseIpv4_eq_none] at ho
        cases ho
      rw [normalize, hv4, (hagrees g).mpr hg]
      rfl

/-- A length in decimal is read as what it is. -/
theorem readBits_iff {host : List Char} {e : Normalized} {text : Option (List Char)}
    (h : ∀ t ∈ text, IsDecimal t) {bits : ℕ} :
    readBits host e text = some bits ↔ EntryBits host e text bits := by
  cases text with
  | none =>
    show some e.width = some bits ↔ bits = e.width
    rw [Option.some.injEq]
    exact eq_comm
  | some text =>
    have hdecimal := h text rfl
    have hmax : (mappingBits host e + e.width : ℤ) ≤ 128 := by
      cases e with
      | v4 o =>
        rw [mappingBits, Normalized.width]
        split <;> norm_num
      | v6 g => exact le_refl (128 : ℤ)
    rw [readBits, EntryBits, Option.bind_eq_some_iff]
    constructor
    · rintro ⟨p, hp, hread⟩
      split at hread
      · cases hread
      · rename_i hrange
        have hvalue := (integer_of_decimal hdecimal (by omega)).mp hp
        have hbits := Option.some.inj hread
        exact ⟨hdecimal, by omega, by omega⟩
    · rintro ⟨-, hvalue, hle⟩
      refine ⟨(decimalValue text : ℤ), (integer_of_decimal hdecimal (by omega)).mpr rfl, ?_⟩
      rw [if_neg (by omega), hvalue]
      push_cast
      rw [add_sub_cancel_left, Int.toNat_natCast]

/-- **An entry matches what it is to match, unless it is misread.** It is misread where the length
of its prefix is not in decimal digits, or the address in it or the other one is a stray text of
IPv6, and an address, a length and a match are read from them nonetheless. -/
theorem addrMatchesEntry_agrees_iff (addr entry : List Char) :
    (addrMatchesEntry addr entry = true ↔ Matches addr entry) ↔ ¬ Misread addr entry := by
  have hwell : Matches addr entry → WellFormed addr entry := by
    rintro ⟨a, e, bits, ha, he, hbits, -⟩
    refine ⟨ha.not_stray, he.not_stray, fun text htext => ?_⟩
    rw [show entryPrefix entry = some text from htext] at hbits
    exact hbits.1
  rw [addrMatchesEntry_iff]
  constructor
  · rintro hiff ⟨hnot, hread⟩
    exact hnot (hwell (hiff.mp hread))
  · intro hmis
    by_cases hform : WellFormed addr entry
    · refine exists_congr fun a => exists_congr fun e => exists_congr fun bits => ?_
      rw [normalize_iff hform.addr, normalize_iff hform.host, readBits_iff hform.bits]
    · exact iff_of_false (fun hread => hmis ⟨hform, hread⟩) fun h => hform (hwell h)

/-- An entry without digits behind its slash matches every IPv4 address. -/
theorem not_addrMatchesEntry_agrees :
    ¬ ∀ addr entry, addrMatchesEntry addr entry = true ↔ Matches addr entry := by
  intro h
  have hmatches :=
    (h ['9', '.', '9', '.', '9', '.', '9'] ['1', '0', '.', '0', '.', '0', '.', '0', '/']).mp
      (by decide +kernel)
  obtain ⟨a, e, bits, -, -, hbits, -⟩ := hmatches
  exact hbits.1.1 rfl

end ThrottleKit.Security
