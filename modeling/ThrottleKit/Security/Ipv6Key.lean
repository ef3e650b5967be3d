import ThrottleKit.Security.Ipv6Text

/-!
# The key of an IPv6 address

An address is written in the canonical text and read back, every text of it leads to that text, and
so to one rate-limit key. The key is the masked address, so two addresses share it just where they
agree on the prefix; but the key of an IPv4-mapped address is the IPv4 address in it, which no other
address shares, whatever the length of the prefix.

## Main definitions

* `IsGroups`, `groupBit`, `Agree` — addresses, their bits, and addresses that agree on a prefix
* `canonicalText`, `keyOf` — the canonical text and the key of an address

## Main results

* `parse_format` — the canonical text is read back
* `maskIpv6_eq_iff` — what masking keeps is the prefix
* `ipv6_normalisation` — texts, canonical texts and keys
-/

namespace ThrottleKit.Security

open TextCut

/-- Eight 16-bit groups. -/
def IsGroups (g : List ℕ) : Prop := g.length = 8 ∧ ∀ x ∈ g, x < 65536

/-! ### Groups in hexadecimal -/

theorem isHexDigit_digitChar {d : ℕ} (h : d < 16) : isHexDigit (Nat.digitChar d) = true := by
  have hall : ∀ d < 16, isHexDigit (Nat.digitChar d) = true := by decide
  exact hall d h

theorem hexDigit_digitChar {d : ℕ} (h : d < 16) : hexDigit (Nat.digitChar d) = d := by
  have hall : ∀ d < 16, hexDigit (Nat.digitChar d) = d := by decide
  exact hall d h

theorem parseHex_append_singleton (s : List Char) (c : Char) :
    parseHex (s ++ [c]) = 16 * parseHex s + hexDigit c := by
  rw [parseHex, parseHex, List.foldl_append]
  rfl

/-- A number is read back from its hexadecimal digits. -/
theorem parseHex_toDigits (n : ℕ) :
    parseHex (Nat.toDigits 16 n) = n ∧ (Nat.toDigits 16 n).all isHexDigit = true := by
  induction n using Nat.strongRecOn with
  | ind n ih =>
    by_cases h : n < 16
    · rw [Nat.toDigits_of_lt_base h]
      refine ⟨?_, ?_⟩
      · show 16 * 0 + hexDigit (Nat.digitChar n) = n
        rw [hexDigit_digitChar h, Nat.mul_zero, Nat.zero_add]
      · rw [List.all_cons, isHexDigit_digitChar h]
        rfl
    · have hlt : n % 16 < 16 := Nat.mod_lt _ (by decide)
      obtain ⟨hvalue, hhex⟩ := ih (n / 16) (by omega)
      rw [Nat.toDigits_of_base_le (by decide) (not_lt.mp h)]
      refine ⟨?_, ?_⟩
      · rw [parseHex_append_singleton, hvalue, hexDigit_digitChar hlt]
        omega
      · rw [List.all_append, hhex, List.all_cons, isHexDigit_digitChar hlt]
        rfl

theorem isGroup_toDigits {x : ℕ} (h : x < 65536) : IsGroup (Nat.toDigits 16 x) :=
  ⟨Nat.length_toDigits_pos, (Nat.length_toDigits_le_iff (by decide) (by decide)).mpr h,
    (parseHex_toDigits x).2⟩

theorem joined_joinGroups {g : List ℕ} (h : ∀ x ∈ g, x < 65536) : Joined (joinGroups g) g := by
  refine ⟨g.map (Nat.toDigits 16), fun t ht => ?_, rfl, ?_⟩
  · obtain ⟨x, hx, rfl⟩ := List.mem_map.mp ht
    exact isGroup_toDigits (h x hx)
  · rw [List.map_map]
    exact (List.map_id'' (fun x => (parseHex_toDigits x).1) g).symm

/-! ### The run of zeros -/

/-- What the loop knows after `i` rounds: both runs are of zeros, and the current one ends here. -/
structure Runs.Sound (groups : List ℕ) (i : ℕ) (r : Runs) : Prop where
  best : ∀ j, r.bestStart ≤ j → j < r.bestStart + r.bestLen → groups[j]? = some 0
  best_le : r.bestStart + r.bestLen ≤ i
  cur_end : r.curStart.getD i + r.curLen = i
  cur : ∀ j, r.curStart.getD i ≤ j → j < i → groups[j]? = some 0

theorem Runs.Sound.step {groups : List ℕ} {i : ℕ} {r : Runs} (h : r.Sound groups i) :
    (r.step groups i).Sound groups (i + 1) := by
  obtain ⟨hbest, hbest_le, hend, hcur⟩ := h
  rw [Runs.step]
  split
  · rename_i hzero
    have hcur' : ∀ j, r.curStart.getD i ≤ j → j < i + 1 → groups[j]? = some 0 := by
      intro j hj hlt
      rcases Nat.lt_succ_iff_lt_or_eq.mp hlt with hlt | rfl
      · exact hcur j hj hlt
      · exact hzero
    dsimp only
    split
    · refine ⟨fun j hj hlt => hcur' j hj ?_, ?_, ?_, hcur'⟩
      · dsimp only at hlt
        omega
      · dsimp only
        omega
      · dsimp only [Option.getD_some]
        omega
    · refine ⟨hbest, ?_, ?_, hcur'⟩
      · dsimp only
        omega
      · dsimp only [Option.getD_some]
        omega
  · refine ⟨hbest, ?_, rfl, fun j hj hlt => ?_⟩
    · dsimp only
      omega
    · dsimp only [Option.getD_none] at hj
      omega

theorem zeroRuns_sound (groups : List ℕ) : (zeroRuns groups).Sound groups 8 := by
  have hrun : ∀ i, ((List.range i).foldl (Runs.step groups) ⟨0, 0, none, 0⟩).Sound groups i := by
    intro i
    induction i with
    | zero => exact ⟨fun j _ hlt => absurd hlt (Nat.not_lt_zero j), le_rfl, rfl,
        fun j _ hlt => absurd hlt (Nat.not_lt_zero j)⟩
    | succ i ih =>
      rw [List.range_succ, List.foldl_append]
      exact ih.step
  exact hrun 8

/-- A part of a list that is zero at every place is a run of zeros. -/
theorem eq_take_replicate_drop {g : List ℕ} {start len : ℕ} (hle : start + len ≤ g.length)
    (hzero : ∀ j, start ≤ j → j < start + len → g[j]? = some 0) :
    g.take start ++ List.replicate len 0 ++ g.drop (start + len) = g := by
  have hrun : (g.drop start).take len = List.replicate len 0 := by
    refine List.eq_replicate_iff.mpr ⟨?_, fun x hx => ?_⟩
    · rw [List.length_take, List.length_drop]
      omega
    · obtain ⟨j, hj⟩ := List.mem_iff_getElem?.mp hx
      rw [List.getElem?_take] at hj
      split at hj
      · rw [List.getElem?_drop, hzero _ (by omega) (by omega)] at hj
        exact (Option.some.inj hj).symm
      · cases hj
  rw [← hrun, ← List.drop_drop, List.append_assoc, List.take_append_drop, List.take_append_drop]

/-- **The canonical text is a text of the address.** -/
theorem denotes_format {g : List ℕ} (h : IsGroups g) : Denotes (formatIpv6 g) g := by
  obtain ⟨hlen, hlt⟩ := h
  rw [formatIpv6]
  split
  · exact .full (.groups (joined_joinGroups hlt)) hlen
  · rename_i hrun
    have hsound := zeroRuns_sound g
    generalize zeroRuns g = r at hrun hsound ⊢
    have hbest := hsound.best_le
    have hhead := joined_joinGroups (g := g.take r.bestStart) fun x hx =>
      hlt x (List.mem_of_mem_take hx)
    have htail := joined_joinGroups (g := g.drop (r.bestStart + r.bestLen))
      fun x hx => hlt x (List.mem_of_mem_drop hx)
    have hfill : filled (g.take r.bestStart) (g.drop (r.bestStart + r.bestLen)) = g := by
      rw [filled, List.length_take, List.length_drop, show 8 - (min r.bestStart g.length
        + (g.length - (r.bestStart + r.bestLen))) = r.bestLen by omega]
      exact eq_take_replicate_drop (by omega) hsound.best
    have hd := Denotes.run hhead (.groups htail) (by
      rw [List.length_take, List.length_drop]
      omega)
    rw [hfill] at hd
    rw [List.append_assoc]
    exact hd

/-- **The canonical text is read back.** -/
theorem parse_format {g : List ℕ} (h : IsGroups g) : parseIpv6 (formatIpv6 g) = some g :=
  (denotes_format h).parse

/-! ### Bits -/

/-- Bit `i` of an address, from the left. -/
def groupBit (g : List ℕ) (i : ℕ) : Bool := (g.getD (i / 16) 0).testBit (15 - i % 16)

/-- Two addresses have the first `bits` bits in common. -/
def Agree (bits : ℕ) (g h : List ℕ) : Prop := ∀ i < bits, groupBit g i = groupBit h i

instance (bits : ℕ) (g h : List ℕ) : Decidable (Agree bits g h) :=
  inferInstanceAs (Decidable (∀ i < bits, _))

theorem groupBit_cons_of_lt {x i : ℕ} (g : List ℕ) (h : i < 16) :
    groupBit (x :: g) i = x.testBit (15 - i) := by
  rw [groupBit, Nat.div_eq_of_lt h, Nat.mod_eq_of_lt h]
  rfl

theorem groupBit_cons_add (x i : ℕ) (g : List ℕ) : groupBit (x :: g) (i + 16) = groupBit g i := by
  rw [groupBit, groupBit, Nat.add_div_right i (by decide), Nat.add_mod_right]
  rfl

/-- The first group and the others, in so far as the prefix reaches them. -/
theorem agree_cons_iff {bits x y : ℕ} {g h : List ℕ} :
    Agree bits (x :: g) (y :: h) ↔
      (∀ i < min bits 16, x.testBit (15 - i) = y.testBit (15 - i)) ∧ Agree (bits - 16) g h := by
  constructor
  · refine fun hagree => ⟨fun i hi => ?_, fun i hi => ?_⟩
    · have hbit := hagree i (by omega)
      rwa [groupBit_cons_of_lt _ (by omega), groupBit_cons_of_lt _ (by omega)] at hbit
    · have hbit := hagree (i + 16) (by omega)
      rwa [groupBit_cons_add, groupBit_cons_add] at hbit
  · rintro ⟨hfirst, hrest⟩ i hi
    by_cases hlt : i < 16
    · rw [groupBit_cons_of_lt _ hlt, groupBit_cons_of_lt _ hlt]
      exact hfirst i (by omega)
    · obtain ⟨j, rfl⟩ : ∃ j, i = j + 16 := ⟨i - 16, by omega⟩
      rw [groupBit_cons_add, groupBit_cons_add]
      exact hrest j (by omega)

/-- A mask of `bits` ones in front of zeros keeps the first bits. -/
theorem testBit_and_mask (x bits j : ℕ) :
    (x &&& ((0xffff <<< (16 - bits)) &&& 0xffff)).testBit j
      = (x.testBit j && decide (16 - bits ≤ j ∧ j < 16)) := by
  have hones : ∀ j, (0xffff : ℕ).testBit j = decide (j < 16) := fun j =>
    Nat.testBit_two_pow_sub_one 16 j
  rw [Nat.testBit_land, Nat.testBit_land, Nat.testBit_shiftLeft, hones, hones, Bool.eq_iff_iff]
  simp only [Bool.and_eq_true, decide_eq_true_eq, ge_iff_le]
  exact and_congr_right fun _ => by omega

/-- Two groups masked alike have the bits in common that the mask keeps. -/
theorem mask_eq_iff {bits x y : ℕ} (hbits : bits ≤ 16) :
    x &&& ((0xffff <<< (16 - bits)) &&& 0xffff) = y &&& ((0xffff <<< (16 - bits)) &&& 0xffff) ↔
      ∀ i < bits, x.testBit (15 - i) = y.testBit (15 - i) := by
  constructor
  · intro heq i hi
    have hkept := testBit_and_mask x bits (15 - i)
    rw [heq, testBit_and_mask, decide_eq_true (show 16 - bits ≤ 15 - i ∧ 15 - i < 16 by omega),
      Bool.and_true, Bool.and_true] at hkept
    exact hkept.symm
  · intro hagree
    refine Nat.eq_of_testBit_eq fun j => ?_
    rw [testBit_and_mask, testBit_and_mask]
    by_cases hj : 16 - bits ≤ j ∧ j < 16
    · have hbit := hagree (15 - j) (by omega)
      rw [show 15 - (15 - j) = j by omega] at hbit
      rw [hbit]
    · rw [decide_eq_false hj, Bool.and_false, Bool.and_false]

/-- Whole groups are the same when all their bits are. -/
theorem group_eq_iff {x y : ℕ} (hx : x < 65536) (hy : y < 65536) :
    x = y ↔ ∀ i < 16, x.testBit (15 - i) = y.testBit (15 - i) := by
  constructor
  · rintro rfl i _
    rfl
  · intro hagree
    refine Nat.eq_of_testBit_eq fun j => ?_
    by_cases hj : j < 16
    · have hbit := hagree (15 - j) (by omega)
      rwa [show 15 - (15 - j) = j by omega] at hbit
    · have hpow : (65536 : ℕ) ≤ 2 ^ j := by
        rw [show (65536 : ℕ) = 2 ^ 16 by rfl]
        exact Nat.pow_le_pow_right (by decide) (not_lt.mp hj)
      rw [Nat.testBit_lt_two_pow (hx.trans_le hpow), Nat.testBit_lt_two_pow (hy.trans_le hpow)]

/-- **What masking keeps is the prefix.** -/
theorem maskFrom_eq_iff {g h : List ℕ} (hlen : g.length = h.length) (hg : ∀ x ∈ g, x < 65536)
    (hh : ∀ y ∈ h, y < 65536) (bits : ℕ) :
    maskFrom bits g = maskFrom bits h ↔ Agree bits g h := by
  induction g generalizing h bits with
  | nil =>
    obtain rfl := List.length_eq_zero_iff.mp hlen.symm
    exact iff_of_true rfl fun _ _ => rfl
  | cons x g ih =>
    obtain ⟨y, h, rfl⟩ : ∃ y h', h = y :: h' := List.exists_cons_of_length_eq_add_one hlen.symm
    obtain ⟨hx, hg⟩ := List.forall_mem_cons.mp hg
    obtain ⟨hy, hh⟩ := List.forall_mem_cons.mp hh
    have ih := ih (Nat.succ.inj hlen) hg hh
    rw [agree_cons_iff, maskFrom, maskFrom]
    by_cases hwhole : 16 ≤ bits
    · rw [if_pos hwhole, if_pos hwhole, List.cons_eq_cons, ih, min_eq_right hwhole]
      exact and_congr_left fun _ => group_eq_iff hx hy
    · rw [if_neg hwhole, if_neg hwhole, show bits - 16 = 0 by omega,
        min_eq_left (not_le.mp hwhole).le, ← ih 0]
      by_cases hzero : bits = 0
      · rw [if_pos hzero, if_pos hzero, List.cons_eq_cons, hzero]
        exact and_congr_left fun _ => iff_of_true rfl fun i hi => absurd hi (Nat.not_lt_zero i)
      · rw [if_neg hzero, if_neg hzero, List.cons_eq_cons, mask_eq_iff (not_le.mp hwhole).le]

theorem maskIpv6_eq_iff {g h : List ℕ} (hg : IsGroups g) (hh : IsGroups h) (bits : ℕ) :
    maskIpv6 g bits = maskIpv6 h bits ↔ Agree bits g h :=
  maskFrom_eq_iff (hg.1.trans hh.1.symm) hg.2 hh.2 bits

theorem isGroups_mask {g : List ℕ} (h : IsGroups g) (bits : ℕ) : IsGroups (maskIpv6 g bits) := by
  have hmask : ∀ (g : List ℕ) (bits : ℕ), (∀ x ∈ g, x < 65536) →
      (maskFrom bits g).length = g.length ∧ ∀ x ∈ maskFrom bits g, x < 65536 := by
    intro g
    induction g with
    | nil => exact fun bits _ => ⟨rfl, fun x hx => absurd hx List.not_mem_nil⟩
    | cons x g ih =>
      intro bits hlt
      obtain ⟨hx, hg⟩ := List.forall_mem_cons.mp hlt
      have hand : ∀ m, x &&& m < 65536 := fun m => Nat.and_le_left.trans_lt hx
      rw [maskFrom]
      split
      · obtain ⟨hlen, hrest⟩ := ih (bits - 16) hg
        exact ⟨congrArg (· + 1) hlen, List.forall_mem_cons.mpr ⟨hx, hrest⟩⟩
      · obtain ⟨hlen, hrest⟩ := ih 0 hg
        split
        · exact ⟨congrArg (· + 1) hlen, List.forall_mem_cons.mpr ⟨by decide, hrest⟩⟩
        · exact ⟨congrArg (· + 1) hlen, List.forall_mem_cons.mpr ⟨hand _, hrest⟩⟩
  obtain ⟨hlen, hlt⟩ := hmask g bits h.2
  exact ⟨hlen.trans h.1, hlt⟩

/-! ### What is read are groups -/

theorem hexDigit_lt {c : Char} (h : isHexDigit c = true) : hexDigit c < 16 := by
  rw [isHexDigit, Bool.or_eq_true, Bool.or_eq_true, Bool.and_eq_true, Bool.and_eq_true] at h
  rw [hexDigit]
  split
  · rename_i hdigit
    obtain ⟨k, hk, rfl⟩ := eq_digitChar_of_isDigit hdigit
    rw [Nat.toNat_digitChar_of_lt_ten hk]
    omega
  · rename_i hdigit
    rcases h with (h | ⟨hlow, hhigh⟩) | ⟨-, hhigh⟩
    · exact absurd h hdigit
    · have hle : c.toNat ≤ 102 := UInt32.le_iff_toNat_le.mp (of_decide_eq_true hhigh)
      rw [if_pos (of_decide_eq_true hlow)]
      omega
    · have hle : c.toNat ≤ 70 := UInt32.le_iff_toNat_le.mp (of_decide_eq_true hhigh)
      split
      · omega
      · omega

theorem parseHex_lt {s : List Char} (h : s.all isHexDigit = true) :
    parseHex s < 16 ^ s.length := by
  induction s using List.reverseRecOn with
  | nil => exact Nat.one_pos
  | append_singleton s c ih =>
    rw [List.all_append, Bool.and_eq_true, List.all_cons, Bool.and_eq_true] at h
    have hc := hexDigit_lt h.2.1
    have ih := ih h.1
    rw [parseHex_append_singleton, List.length_append, List.length_singleton, pow_succ]
    omega

theorem Joined.lt {t : List Char} {g : List ℕ} (h : Joined t g) : ∀ x ∈ g, x < 65536 := by
  obtain ⟨ts, hts, -, rfl⟩ := h
  intro x hx
  obtain ⟨t, ht, rfl⟩ := List.mem_map.mp hx
  obtain ⟨-, hlen, hhex⟩ := hts t ht
  exact (parseHex_lt hhex).trans_le (Nat.pow_le_pow_right (by decide) hlen)

/-- Two octets in one group. -/
theorem octets_group {a b : ℕ} (hb : b ≤ 255) : a <<< 8 ||| b = 256 * a + b := by
  rw [← Nat.shiftLeft_add_eq_or_of_lt (show b < 2 ^ 8 by omega), Nat.shiftLeft_eq]
  omega

theorem Dotted.lt {v : List Char} {o : List ℕ} (h : Dotted v o) :
    ∀ x ∈ octetGroups o, x < 65536 := by
  obtain ⟨hlen, hle, -⟩ := h
  match o, hlen with
  | [a, b, c, d], _ =>
    have ha := hle a (by simp)
    have hb := hle b (by simp)
    have hc := hle c (by simp)
    have hd := hle d (by simp)
    intro x hx
    rw [octetGroups, octets_group hb, octets_group hd, List.mem_pair] at hx
    omega

/-- **What is read are eight 16-bit groups.** -/
theorem isGroups_of_parse {input : List Char} {g : List ℕ} (h : parseIpv6 input = some g) :
    IsGroups g := by
  rw [parseIpv6] at h
  split at h
  · cases h
  obtain ⟨⟨p, v⟩, hpeel, hexpand⟩ := Option.bind_eq_some_iff.mp h
  have hv : ∀ x ∈ v, x < 65536 := by
    rcases peelIpv4_eq_some hpeel with ⟨-, rfl⟩ | ⟨before, after, o, -, hv, -, rfl⟩
    · exact fun x hx => absurd hx List.not_mem_nil
    · exact hv.lt
  rcases expand_eq_some hexpand with ⟨a, ha, hlen, rfl⟩ | ⟨u, t, a, b, -, ha, -, hb, hlen, rfl⟩
  · exact ⟨hlen, List.forall_mem_append.mpr ⟨ha.lt, hv⟩⟩
  · refine ⟨?_, List.forall_mem_append.mpr ⟨List.forall_mem_append.mpr ⟨ha.lt, fun x hx => ?_⟩,
      List.forall_mem_append.mpr ⟨hb.lt, hv⟩⟩⟩
    · rw [filled, List.length_append, List.length_append, List.length_replicate]
      omega
    · rw [List.eq_of_mem_replicate hx]
      decide

theorem Denotes.isGroups {t : List Char} {g : List ℕ} (h : Denotes t g) : IsGroups g :=
  isGroups_of_parse h.parse

/-! ### Mapped addresses -/

/-- An IPv4-mapped address: ten bytes of zeros and two of ones in front. -/
def IsMapped (g : List ℕ) : Prop := g.take 6 = [0, 0, 0, 0, 0, 0xffff]

instance (g : List ℕ) : Decidable (IsMapped g) := inferInstanceAs (Decidable (_ = _))

theorem low_byte (x : ℕ) : x &&& 0xff = x % 256 := Nat.and_two_pow_sub_one_eq_mod x 8

/-- The octets in a mapped address, and the address around them. -/
theorem ipv4MappedTail_eq {g : List ℕ} (h : IsGroups g) :
    IsMapped g ∧ (∃ m, ipv4MappedTail g = some m ∧ m.length = 4 ∧ (∀ o ∈ m, o ≤ 255) ∧
      g = [0, 0, 0, 0, 0, 0xffff] ++ octetGroups m) ∨
    ¬ IsMapped g ∧ ipv4MappedTail g = none := by
  obtain ⟨hlen, hlt⟩ := h
  match g, hlen with
  | [a, b, c, d, e, f, x, y], _ =>
    have hx : x < 65536 := hlt x (by simp)
    have hy : y < 65536 := hlt y (by simp)
    by_cases hmapped : IsMapped [a, b, c, d, e, f, x, y]
    · left
      obtain ⟨rfl, rfl, rfl, rfl, rfl, rfl⟩ :
          a = 0 ∧ b = 0 ∧ c = 0 ∧ d = 0 ∧ e = 0 ∧ f = 0xffff := by
        simpa [IsMapped] using hmapped
      refine ⟨hmapped, [x / 256 % 256, x % 256, y / 256 % 256, y % 256], ?_, rfl, ?_, ?_⟩
      · rw [ipv4MappedTail, if_neg (by simp [List.range_succ]), if_neg (by simp)]
        simp only [List.getD_cons_succ, List.getD_cons_zero, low_byte, Nat.shiftRight_eq_div_pow]
      · intro o ho
        simp only [List.mem_cons, List.not_mem_nil, or_false] at ho
        omega
      · rw [octetGroups, octets_group (by omega), octets_group (by omega),
          show 256 * (x / 256 % 256) + x % 256 = x by omega,
          show 256 * (y / 256 % 256) + y % 256 = y by omega]
        rfl
    · refine .inr ⟨hmapped, ?_⟩
      rw [ipv4MappedTail]
      split
      · rfl
      · rename_i hzeros
        rw [if_pos]
        intro hf
        refine hmapped ?_
        have hzeros := not_not.mp hzeros
        simp [List.range_succ] at hzeros
        simpa [IsMapped, hzeros] using hf

/-! ### Keys -/

/-- The canonical text of an address. -/
def canonicalText (g : List ℕ) : List Char :=
  match ipv4MappedTail g with
  | some mapped => joinOctets mapped
  | none => formatIpv6 g

/-- The key of an address. -/
def keyOf (g : List ℕ) (bits : ℕ) : List Char :=
  match ipv4MappedTail g with
  | some mapped => joinOctets mapped
  | none => formatIpv6 (maskIpv6 g bits)

theorem dotted_joinOctets {m : List ℕ} (hlen : m.length = 4) (hle : ∀ o ∈ m, o ≤ 255) :
    Dotted (joinOctets m) m := ⟨hlen, hle, rfl⟩

/-- No character that an address is written in is white space. -/
theorem isSpace_eq_false {c : Char} (h : isHexDigit c = true ∨ c = ':' ∨ c = '.') :
    isSpace c = false := by
  have hrange : 46 ≤ c.toNat ∧ c.toNat ≤ 102 := by
    rcases h with h | rfl | rfl
    · rw [isHexDigit, Bool.or_eq_true, Bool.or_eq_true, Bool.and_eq_true, Bool.and_eq_true] at h
      rcases h with (h | ⟨hlow, hhigh⟩) | ⟨hlow, hhigh⟩
      · obtain ⟨k, hk, rfl⟩ := eq_digitChar_of_isDigit h
        rw [Nat.toNat_digitChar_of_lt_ten hk]
        omega
      · have hge : 97 ≤ c.toNat := UInt32.le_iff_toNat_le.mp (of_decide_eq_true hlow)
        have hle : c.toNat ≤ 102 := UInt32.le_iff_toNat_le.mp (of_decide_eq_true hhigh)
        omega
      · have hge : 65 ≤ c.toNat := UInt32.le_iff_toNat_le.mp (of_decide_eq_true hlow)
        have hle : c.toNat ≤ 70 := UInt32.le_iff_toNat_le.mp (of_decide_eq_true hhigh)
        omega
    · decide
    · decide
  rw [isSpace, List.contains_eq_mem, decide_eq_false_iff_not]
  simp only [List.mem_cons, List.not_mem_nil, or_false]
  omega

theorem trim_eq_self {t : List Char} (h : ∀ c ∈ t, isSpace c = false) : trim t = t := by
  have hdrop : ∀ s : List Char, (∀ c ∈ s, isSpace c = false) → s.dropWhile isSpace = s := by
    intro s hs
    cases s with
    | nil => rfl
    | cons c s => exact List.dropWhile_cons_of_neg (by simp [hs c List.mem_cons_self])
  rw [trim, hdrop t h, hdrop t.reverse fun c hc => h c (List.mem_reverse.mp hc),
    List.reverse_reverse]

/-- What `trim`, the brackets and the zone leave alone. -/
theorem stripHost_eq_self {t : List Char}
    (h : ∀ c ∈ t, isHexDigit c = true ∨ c = ':' ∨ c = '.') : stripHost t = t := by
  have htrim : trim t = t := trim_eq_self fun c hc => isSpace_eq_false (h c hc)
  have hbracket : stripBrackets t = t := by
    rw [stripBrackets, if_neg]
    intro hhead
    rcases h '[' (List.mem_of_head? hhead) with h | h | h
    · exact absurd h (by decide)
    · exact absurd h (by decide)
    · exact absurd h (by decide)
  have hzone : '%' ∉ t := by
    intro hmem
    rcases h '%' hmem with h | h | h
    · exact absurd h (by decide)
    · exact absurd h (by decide)
    · exact absurd h (by decide)
  rw [stripHost, htrim, hbracket, stripZone_eq_self hzone]

theorem Dotted.stripHost_eq {t : List Char} {o : List ℕ} (h : Dotted t o) : stripHost t = t := by
  refine stripHost_eq_self fun c hc => ?_
  rcases h.mem hc with hdigit | hpoint
  · exact .inl (by rw [isHexDigit, hdigit]; rfl)
  · exact .inr (.inr hpoint)

theorem Denotes.stripHost_eq {t : List Char} {g : List ℕ} (h : Denotes t g) : stripHost t = t := by
  refine stripHost_eq_self fun c hc => ?_
  by_contra hnot
  obtain ⟨hhex, hcolon, hpoint⟩ : isHexDigit c ≠ true ∧ c ≠ ':' ∧ c ≠ '.' := by
    simpa only [not_or] using hnot
  exact h.not_mem (Bool.eq_false_iff.mpr hhex) hcolon hpoint hc

/-- No text is read as both. -/
theorem Denotes.parseIpv4_eq_none {t : List Char} {g : List ℕ} (h : Denotes t g) :
    parseIpv4 t = none := by
  refine Option.eq_none_iff_forall_ne_some.mpr fun o ho => ?_
  have hdotted := parseIpv4_eq_some_iff.mp ho
  cases h with
  | full hend hlen =>
    rw [hend.unique (.dotted hdotted), hdotted.length_octetGroups] at hlen
    cases hlen
  | run =>
    have hcolon : ':' ∉ _ := hdotted.not_mem rfl (by decide)
    simp at hcolon

theorem Dotted.ne_nil {t : List Char} {o : List ℕ} (h : Dotted t o) : t ≠ [] :=
  List.ne_nil_of_mem h.point_mem

theorem Denotes.ne_nil {t : List Char} {g : List ℕ} (h : Denotes t g) : t ≠ [] := by
  rintro rfl
  have hparse := h.parse
  cases hparse

theorem Dotted.canonicalize {t : List Char} {o : List ℕ} (h : Dotted t o) :
    canonicalizeAddr t = some t := by
  rw [canonicalizeAddr, h.stripHost_eq]
  rw [if_neg h.ne_nil, parseIpv4_eq_some_iff.mpr h]
  rfl

/-- **Every text of an address leads to the canonical text.** -/
theorem Denotes.canonicalize {t : List Char} {g : List ℕ} (h : Denotes t g) :
    canonicalizeAddr t = some (canonicalText g) := by
  rw [canonicalizeAddr, h.stripHost_eq]
  rw [if_neg h.ne_nil, h.parseIpv4_eq_none, if_neg (by simp), h.parse]
  rfl

theorem canonicalize_canonicalText {g : List ℕ} (h : IsGroups g) :
    canonicalizeAddr (canonicalText g) = some (canonicalText g) := by
  rcases ipv4MappedTail_eq h with ⟨-, m, hm, hlen, hle, -⟩ | ⟨-, hnone⟩
  · rw [canonicalText, hm]
    exact (dotted_joinOctets hlen hle).canonicalize
  · have htext : canonicalText g = formatIpv6 g := by rw [canonicalText, hnone]
    rw [htext, (denotes_format h).canonicalize, htext]

/-- **Canonicalising is idempotent.** -/
theorem canonicalizeAddr_idempotent {raw c : List Char} (h : canonicalizeAddr raw = some c) :
    canonicalizeAddr c = some c := by
  rw [canonicalizeAddr] at h
  split at h
  · cases h
  split at h
  · rename_i hv4
    obtain ⟨o, ho⟩ := Option.isSome_iff_exists.mp hv4
    rw [← Option.some.inj h]
    exact (parseIpv4_eq_some_iff.mp ho).canonicalize
  · obtain ⟨g, hg, rfl⟩ := Option.map_eq_some_iff.mp h
    exact canonicalize_canonicalText (isGroups_of_parse hg)

/-- The key of a canonical text. -/
theorem aggregate_canonicalText {g : List ℕ} (h : IsGroups g) (bits : ℕ) :
    aggregate (canonicalText g) bits = keyOf g bits := by
  rcases ipv4MappedTail_eq h with ⟨-, m, hm, hlen, hle, -⟩ | ⟨-, hnone⟩
  · rw [canonicalText, keyOf, hm]
    dsimp only
    rw [aggregate, parseIpv4_eq_some_iff.mpr (dotted_joinOctets hlen hle)]
    rfl
  · rw [canonicalText, keyOf, hnone]
    dsimp only
    rw [aggregate, (denotes_format h).parseIpv4_eq_none, if_neg (by simp), parse_format h]
    dsimp only
    rw [hnone]

/-- The peer's key is that of the address its text stands for. -/
theorem clientIp_never {t : List Char} {g : List ℕ} (h : Denotes t g) (xff : Option Header)
    (ipv6Prefix : Option ℚ) :
    clientIp ⟨t, xff⟩ ⟨.never, ipv6Prefix⟩
      = keyOf g (TrustProxyConfig.prefixLength ⟨.never, ipv6Prefix⟩) := by
  rw [clientIp]
  dsimp only
  rw [ClientIpInput.remote, h.canonicalize, Option.getD_some, aggregate_canonicalText h.isGroups]

/-- **Two addresses have the same key just where they agree on the prefix**, but for IPv4-mapped
addresses, each of which has a key of its own. -/
theorem keyOf_eq_iff {g h : List ℕ} (hg : IsGroups g) (hh : IsGroups h) (bits : ℕ) :
    keyOf g bits = keyOf h bits ↔ if IsMapped g ∨ IsMapped h then g = h else Agree bits g h := by
  have hpoint : ∀ {g : List ℕ}, IsGroups g → ∀ {m : List ℕ}, m.length = 4 → (∀ o ∈ m, o ≤ 255) →
      joinOctets m ≠ formatIpv6 (maskIpv6 g bits) := by
    intro g hg m hlen hle heq
    have hv4 := parseIpv4_eq_some_iff.mpr (dotted_joinOctets hlen hle)
    rw [heq, (denotes_format (isGroups_mask hg bits)).parseIpv4_eq_none] at hv4
    cases hv4
  rcases ipv4MappedTail_eq hg with ⟨hgm, m, hm, hlen, hle, hgeq⟩ | ⟨hgm, hgn⟩
  · rw [if_pos (.inl hgm), keyOf, keyOf, hm]
    rcases ipv4MappedTail_eq hh with ⟨hhm, m', hm', hlen', hle', hheq⟩ | ⟨hhm, hhn⟩
    · rw [hm']
      constructor
      · intro hkey
        have hv4 := parseIpv4_eq_some_iff.mpr (dotted_joinOctets hlen hle)
        rw [show joinOctets m = joinOctets m' from hkey,
          parseIpv4_eq_some_iff.mpr (dotted_joinOctets hlen' hle')] at hv4
        rw [hgeq, hheq, Option.some.inj hv4]
      · rintro rfl
        rw [hm] at hm'
        rw [Option.some.inj hm']
    · rw [hhn]
      exact iff_of_false (hpoint hh hlen hle) fun heq => hhm (heq ▸ hgm)
  · rcases ipv4MappedTail_eq hh with ⟨hhm, m', hm', hlen', hle', hheq⟩ | ⟨hhm, hhn⟩
    · rw [if_pos (.inr hhm), keyOf, keyOf, hgn, hm']
      exact iff_of_false (fun hkey => hpoint hg hlen' hle' hkey.symm) fun heq => hgm (heq ▸ hhm)
    · rw [if_neg (not_or.mpr ⟨hgm, hhm⟩), keyOf, keyOf, hgn, hhn]
      dsimp only
      rw [← maskIpv6_eq_iff hg hh]
      constructor
      · intro hkey
        have hread := parse_format (isGroups_mask hg bits)
        rw [hkey, parse_format (isGroups_mask hh bits)] at hread
        exact (Option.some.inj hread).symm
      · exact congrArg formatIpv6

/-- **The normalisation of IPv6 addresses.** An address is read back from its canonical text;
canonicalising twice is canonicalising once; every text of an address leads to the same client,
whatever the policy; and two addresses have the same key just where they agree on the prefix, unless
one of them is IPv4-mapped, which has a key that no other address has. -/
theorem ipv6_normalisation {g h : List ℕ} (hg : IsGroups g) (hh : IsGroups h)
    (raw canonical : List Char) (ipv6Prefix : Option ℚ) :
    parseIpv6 (formatIpv6 g) = some g ∧
      (canonicalizeAddr raw = some canonical → canonicalizeAddr canonical = some canonical) ∧
      (∀ t t', Denotes t g → Denotes t' g → ∀ xff config,
        clientIp ⟨t, xff⟩ config = clientIp ⟨t', xff⟩ config) ∧
      ∀ t t', Denotes t g → Denotes t' h → ∀ xff xff',
        (clientIp ⟨t, xff⟩ ⟨.never, ipv6Prefix⟩ = clientIp ⟨t', xff'⟩ ⟨.never, ipv6Prefix⟩ ↔
          if IsMapped g ∨ IsMapped h then g = h
          else Agree (TrustProxyConfig.prefixLength ⟨.never, ipv6Prefix⟩) g h) := by
  refine ⟨parse_format hg, canonicalizeAddr_idempotent, fun t t' ht ht' xff config => ?_,
    fun t t' ht ht' xff xff' => ?_⟩
  · have hremote : ClientIpInput.remote ⟨t, xff⟩ = ClientIpInput.remote ⟨t', xff⟩ := by
      rw [ClientIpInput.remote, ClientIpInput.remote, ht.canonicalize, ht'.canonicalize]
      rfl
    have hchain : ClientIpInput.chain ⟨t, xff⟩ = ClientIpInput.chain ⟨t', xff⟩ := by
      rw [ClientIpInput.chain, ClientIpInput.chain, hremote]
    rw [clientIp, clientIp, hremote, hchain]
  · rw [clientIp_never ht, clientIp_never ht']
    exact keyOf_eq_iff hg hh _

/-- Two addresses in one /64, the one in two spellings. -/
theorem ipv6_normalisation_documentation :
    parseIpv6 (formatIpv6 [0x2001, 0xdb8, 0, 0, 1, 0, 0, 0])
        = some [0x2001, 0xdb8, 0, 0, 1, 0, 0, 0] ∧
      canonicalizeAddr "2001:db8:0:0:1::".toList = some "2001:db8:0:0:1::".toList ∧
      clientIp ⟨"2001:DB8:0:0:1:0:0:0".toList, none⟩ ⟨.never, some 64⟩
        = clientIp ⟨"2001:db8:0:0:1::".toList, none⟩ ⟨.never, some 64⟩ ∧
      clientIp ⟨"2001:DB8:0:0:1:0:0:0".toList, none⟩ ⟨.never, some 64⟩
        = clientIp ⟨"2001:db8::1".toList, none⟩ ⟨.never, some 64⟩ := by
  have hg : IsGroups [0x2001, 0xdb8, 0, 0, 1, 0, 0, 0] := ⟨rfl, by decide⟩
  have hh : IsGroups [0x2001, 0xdb8, 0, 0, 0, 0, 0, 1] := ⟨rfl, by decide⟩
  have hupper : Denotes "2001:DB8:0:0:1:0:0:0".toList [0x2001, 0xdb8, 0, 0, 1, 0, 0, 0] :=
    .full (.groups (parseGroups_eq_some_iff.mp (by decide +kernel))) rfl
  obtain ⟨hread, htwice, hspelling, hkeys⟩ := ipv6_normalisation hg hh
    "2001:DB8:0:0:1:0:0:0".toList "2001:db8:0:0:1::".toList (some 64)
  exact ⟨hread, htwice (by decide +kernel), hspelling _ _ hupper (denotes_format hg) none _,
    (hkeys _ _ hupper (denotes_format hh) none none).mpr (by decide +kernel)⟩

/-- Two IPv4-mapped addresses agree on the first 64 bits, and have different keys. -/
theorem not_same_key_of_agree :
    ¬ ∀ g h, IsGroups g → IsGroups h → ∀ t t', Denotes t g → Denotes t' h →
      (clientIp ⟨t, none⟩ ⟨.never, some 64⟩ = clientIp ⟨t', none⟩ ⟨.never, some 64⟩ ↔
        Agree 64 g h) := by
  intro hall
  have hg : IsGroups [0, 0, 0, 0, 0, 0xffff, 0x102, 0x304] := ⟨rfl, by decide⟩
  have hh : IsGroups [0, 0, 0, 0, 0, 0xffff, 0x102, 0x305] := ⟨rfl, by decide⟩
  have hsame := (hall _ _ hg hh _ _ (denotes_format hg) (denotes_format hh)).mpr (by decide +kernel)
  revert hsame
  decide +kernel

end ThrottleKit.Security
