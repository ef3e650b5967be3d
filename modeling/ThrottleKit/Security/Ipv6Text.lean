import Mathlib.Data.List.Forall2
import Mathlib.Data.List.TakeWhile
import ThrottleKit.Security.Ip

/-!
# The texts of IPv6 addresses

The grammar: eight groups of one to four hexadecimal digits, joined by single colons, where one `::`
may stand for one or more groups of zero, and an IPv4 address in dotted decimal for the last two
groups. What the parser reads is the grammar and two kinds of texts beside it. A `::` is accepted
between eight groups, where it stands for none; and one colon is dropped from the end of a text, as
it has to be where an IPv4 tail was taken off, but also where there was none.

## Main definitions

* `Joined`, `Dotted`, `Ending`, `Denotes` — the grammar, with the groups a text stands for
* `Stray` — the texts beside it that are read

## Main results

* `parseIpv4_eq_some_iff` — dotted decimal is what is read as IPv4
* `Denotes.parse` — a text of the grammar is read as what it stands for
* `parse_agrees_iff` — other texts are read just where they are stray
-/

namespace ThrottleKit.Security

open TextCut

/-! ### Grammar -/

/-- One to four hexadecimal digits. -/
def IsGroup (t : List Char) : Prop := 1 ≤ t.length ∧ t.length ≤ 4 ∧ t.all isHexDigit

/-- Groups joined by single colons. -/
def Joined (text : List Char) (groups : List ℕ) : Prop :=
  ∃ ts, (∀ t ∈ ts, IsGroup t) ∧ text = [':'].intercalate ts ∧ groups = ts.map parseHex

/-- Four numbers up to 255 in decimal, joined by points. -/
def Dotted (text : List Char) (octets : List ℕ) : Prop :=
  octets.length = 4 ∧ (∀ o ∈ octets, o ≤ 255) ∧ text = joinOctets octets

/-- Groups joined by single colons, the last two of which may be in dotted decimal. -/
inductive Ending : List Char → List ℕ → Prop
  | groups {t g} : Joined t g → Ending t g
  | dotted {v o} : Dotted v o → Ending v (octetGroups o)
  | behind {t g v o} : Joined t g → t ≠ [] → Dotted v o →
      Ending (t ++ ':' :: v) (g ++ octetGroups o)

/-- The eight groups with a run of zeros between `a` and `b`. -/
def filled (a b : List ℕ) : List ℕ := a ++ List.replicate (8 - (a.length + b.length)) 0 ++ b

/-- The texts of IPv6 addresses. -/
inductive Denotes : List Char → List ℕ → Prop
  | full {s g} : Ending s g → g.length = 8 → Denotes s g
  | run {h t a b} : Joined h a → Ending t b → a.length + b.length < 8 →
      Denotes (h ++ ':' :: ':' :: t) (filled a b)

/-- Texts that are read although they are none: a `::` between eight groups, and a colon at the end
of a text without an IPv4 tail. -/
inductive Stray : List Char → Prop
  | noRun {h t a b} : Joined h a → Ending t b → a.length + b.length = 8 →
      Stray (h ++ ':' :: ':' :: t)
  | colonFull {s g} : Joined s g → g.length = 8 → Stray (s ++ [':'])
  | colonRun {h t a b} : Joined h a → Joined t b → t ≠ [] → a.length + b.length ≤ 8 →
      Stray (h ++ ':' :: ':' :: (t ++ [':']))

theorem mapM_eq_some_iff {α β : Type*} {f : α → Option β} {xs : List α} {ys : List β} :
    xs.mapM f = some ys ↔ List.Forall₂ (fun x y => f x = some y) xs ys := by
  induction xs generalizing ys with
  | nil => simp [eq_comm]
  | cons x xs ih =>
    rw [List.mapM_cons]
    constructor
    · intro h
      obtain ⟨y, hy, h⟩ := Option.bind_eq_some_iff.mp h
      obtain ⟨ys', hys, h⟩ := Option.bind_eq_some_iff.mp h
      rw [← Option.some.inj h]
      exact .cons hy (ih.mp hys)
    · rintro (_ | ⟨hy, hys⟩)
      rw [hy, ih.mpr hys]
      rfl

/-! ### Dotted decimal -/

theorem eq_digitChar_of_isDigit {c : Char} (h : c.isDigit = true) :
    ∃ k < 10, c = Nat.digitChar k := by
  obtain ⟨hlow, hhigh⟩ : 48 ≤ c.toNat ∧ c.toNat ≤ 57 := by
    rw [Char.isDigit, Bool.and_eq_true, decide_eq_true_eq, decide_eq_true_eq] at h
    exact ⟨UInt32.le_iff_toNat_le.mp h.1, UInt32.le_iff_toNat_le.mp h.2⟩
  refine ⟨c.toNat - 48, by omega, Char.toNat_inj.mp ?_⟩
  rw [Nat.toNat_digitChar_of_lt_ten (by omega)]
  omega

/-- **An octet is read from its decimal text and from no other.** -/
theorem parseOctet_eq_some_iff {g : List Char} {o : ℕ} :
    parseOctet g = some o ↔ o ≤ 255 ∧ g = Nat.toDigits 10 o := by
  constructor
  · intro h
    rw [parseOctet] at h
    split at h
    · cases h
    rename_i hre
    obtain ⟨hpos, hlen, hdigits⟩ := not_not.mp hre
    split at h
    · cases h
    rename_i hzero
    dsimp only at h
    split at h
    · cases h
    rename_i hle
    obtain rfl := Option.some.inj h
    refine ⟨not_lt.mp hle, ?_⟩
    have hdigit : ∀ c ∈ g, ∃ k < 10, c = Nat.digitChar k :=
      fun c hc => eq_digitChar_of_isDigit (List.all_eq_true.mp hdigits c hc)
    clear h hle hre hdigits
    have h1 : ∀ i < 10, [Nat.digitChar i]
        = Nat.toDigits 10 (Nat.ofDigitChars 10 [Nat.digitChar i] 0) := by decide +kernel
    have h2 : ∀ i < 10, ∀ j < 10, Nat.digitChar i ≠ '0' → [Nat.digitChar i, Nat.digitChar j]
        = Nat.toDigits 10 (Nat.ofDigitChars 10 [Nat.digitChar i, Nat.digitChar j] 0) := by
      decide +kernel
    have h3 : ∀ i < 10, ∀ j < 10, ∀ k < 10, Nat.digitChar i ≠ '0' →
        [Nat.digitChar i, Nat.digitChar j, Nat.digitChar k] = Nat.toDigits 10
          (Nat.ofDigitChars 10 [Nat.digitChar i, Nat.digitChar j, Nat.digitChar k] 0) := by
      decide +kernel
    match g, hpos, hlen with
    | [a], _, _ =>
      obtain ⟨i, hi, rfl⟩ := hdigit a (by simp)
      exact h1 i hi
    | [a, b], _, _ =>
      obtain ⟨i, hi, rfl⟩ := hdigit a (by simp)
      obtain ⟨j, hj, rfl⟩ := hdigit b (by simp)
      exact h2 i hi j hj fun h => hzero ⟨by simp, congrArg some h⟩
    | [a, b, c], _, _ =>
      obtain ⟨i, hi, rfl⟩ := hdigit a (by simp)
      obtain ⟨j, hj, rfl⟩ := hdigit b (by simp)
      obtain ⟨k, hk, rfl⟩ := hdigit c (by simp)
      exact h3 i hi j hj k hk fun h => hzero ⟨by simp, congrArg some h⟩
    | _ :: _ :: _ :: _ :: _, _, hlen => exact absurd hlen (by simp)
  · rintro ⟨hle, rfl⟩
    have hall : ∀ o < 256, parseOctet (Nat.toDigits 10 o) = some o := by decide +kernel
    exact hall o (by omega)

theorem not_mem_toDigits {c : Char} (hc : c.isDigit = false) (o : ℕ) : c ∉ Nat.toDigits 10 o := by
  intro h
  rw [Nat.isDigit_of_mem_toDigits (by decide) (by decide) h] at hc
  cases hc

/-- **Dotted decimal is what is read as IPv4.** -/
theorem parseIpv4_eq_some_iff {s : List Char} {octets : List ℕ} :
    parseIpv4 s = some octets ↔ Dotted s octets := by
  have hsplit : ∀ os : List ℕ, os ≠ [] →
      (joinOctets os).splitOn '.' = os.map (Nat.toDigits 10) := by
    intro os hne
    refine List.splitOn_intercalate _ (fun l hl => ?_) (List.map_eq_nil_iff.not.mpr hne)
    obtain ⟨o, -, rfl⟩ := List.mem_map.mp hl
    exact not_mem_toDigits rfl o
  rw [parseIpv4]
  constructor
  · intro h
    split at h
    · rename_i hlen
      have hforall := mapM_eq_some_iff.mp h
      have hoctets : List.Forall₂ (fun o g => o ≤ 255 ∧ g = Nat.toDigits 10 o) octets
          (s.splitOn '.') := hforall.flip.imp fun o g hg => parseOctet_eq_some_iff.mp hg
      obtain ⟨hle, htexts⟩ := (List.forall₂_and_left _ _).mp hoctets
      refine ⟨by rw [← hlen, hforall.length_eq], hle, ?_⟩
      have heq : octets.map (Nat.toDigits 10) = s.splitOn '.' := by
        rw [← List.forall₂_eq_eq_eq, List.forall₂_map_left_iff]
        exact htexts.imp fun o g hg => hg.symm
      rw [joinOctets, heq, List.intercalate_splitOn]
    · cases h
  · rintro ⟨hlen, hle, rfl⟩
    have hne : octets ≠ [] := by
      rintro rfl
      cases hlen
    rw [hsplit _ hne, List.length_map, if_pos hlen, mapM_eq_some_iff, List.forall₂_map_left_iff]
    exact List.forall₂_same.mpr fun o ho => parseOctet_eq_some_iff.mpr ⟨hle o ho, rfl⟩

theorem Dotted.point_mem {v : List Char} {o : List ℕ} (h : Dotted v o) : '.' ∈ v := by
  obtain ⟨hlen, -, rfl⟩ := h
  match o, hlen with
  | [a, b, c, d], _ => simp [joinOctets]

/-- Dotted decimal is written in digits and points. -/
theorem Dotted.mem {v : List Char} {o : List ℕ} (h : Dotted v o) {c : Char} (hc : c ∈ v) :
    c.isDigit = true ∨ c = '.' := by
  obtain ⟨-, -, rfl⟩ := h
  rw [joinOctets] at hc
  induction o with
  | nil => cases hc
  | cons o os ih =>
    cases os with
    | nil =>
      rw [List.map_singleton, List.intercalate_singleton] at hc
      exact .inl (Nat.isDigit_of_mem_toDigits (by decide) (by decide) hc)
    | cons o' os =>
      rw [List.map_cons, List.map_cons, List.intercalate_cons_cons] at hc
      rcases List.mem_append.mp hc with hc | hc
      · rcases List.mem_append.mp hc with hc | hc
        · exact .inl (Nat.isDigit_of_mem_toDigits (by decide) (by decide) hc)
        · exact .inr (List.mem_singleton.mp hc)
      · exact ih hc

theorem Dotted.not_mem {v : List Char} {o : List ℕ} (h : Dotted v o) {c : Char}
    (hdigit : c.isDigit = false) (hpoint : c ≠ '.') : c ∉ v := by
  intro hc
  rcases h.mem hc with hc | hc
  · rw [hdigit] at hc
    cases hc
  · exact hpoint hc

/-! ### Groups -/

theorem parseGroup_eq_some_iff {g : List Char} {n : ℕ} :
    parseGroup g = some n ↔ IsGroup g ∧ parseHex g = n := by
  rw [parseGroup, IsGroup]
  split
  · rename_i h
    simp [h]
  · split
    · rename_i h
      exact ⟨(nomatch ·), fun h' => absurd h'.1 h⟩
    · rename_i h
      rw [Option.some.injEq]
      exact (and_iff_right (not_not.mp h)).symm

theorem IsGroup.ne_nil {t : List Char} (h : IsGroup t) : t ≠ [] := by
  rintro rfl
  exact absurd h.1 (by decide)

theorem IsGroup.not_mem {t : List Char} (h : IsGroup t) {c : Char} (hc : isHexDigit c = false) :
    c ∉ t := by
  intro hmem
  rw [List.all_eq_true.mp h.2.2 c hmem] at hc
  cases hc

/-- Groups joined by colons are written in hexadecimal digits and colons. -/
theorem Joined.not_mem {t : List Char} {g : List ℕ} (h : Joined t g) {c : Char}
    (hhex : isHexDigit c = false) (hcolon : c ≠ ':') : c ∉ t := by
  obtain ⟨ts, hts, rfl, -⟩ := h
  clear g
  induction ts with
  | nil => exact List.not_mem_nil
  | cons t ts ih =>
    have ht := (hts t List.mem_cons_self).not_mem hhex
    have ih := ih fun t' ht' => hts t' (List.mem_cons_of_mem _ ht')
    cases ts with
    | nil => rwa [List.intercalate_singleton]
    | cons t' ts =>
      rw [List.intercalate_cons_cons, List.mem_append, List.mem_append, List.mem_singleton]
      rintro ((h | h) | h)
      · exact ht h
      · exact hcolon h
      · exact ih h

theorem joined_nil : Joined [] [] := ⟨[], by simp, rfl, rfl⟩

theorem Joined.eq_nil_iff {t : List Char} {g : List ℕ} (h : Joined t g) : t = [] ↔ g = [] := by
  obtain ⟨ts, hts, rfl, rfl⟩ := h
  rw [List.map_eq_nil_iff]
  constructor
  · intro h
    cases ts with
    | nil => rfl
    | cons t ts =>
      have hne := (hts t List.mem_cons_self).ne_nil
      cases ts with
      | nil => exact absurd (by rwa [List.intercalate_singleton] at h) hne
      | cons t' ts => simp [List.intercalate_cons_cons] at h
  · rintro rfl
    rfl

/-- **Groups joined by colons are what is read as groups.** -/
theorem parseGroups_eq_some_iff {s : List Char} {g : List ℕ} :
    parseGroups s = some g ↔ Joined s g := by
  rw [parseGroups]
  split
  · rename_i hnil
    rw [Option.some.injEq, hnil]
    exact ⟨fun h => h ▸ joined_nil, fun h => (h.eq_nil_iff.mp rfl).symm⟩
  · rename_i hne
    rw [mapM_eq_some_iff]
    constructor
    · intro h
      have hread : List.Forall₂ (fun t n => IsGroup t ∧ parseHex t = n) (s.splitOn ':') g :=
        h.imp fun t n htn => parseGroup_eq_some_iff.mp htn
      obtain ⟨hgroups, hvalues⟩ := (List.forall₂_and_left _ _).mp hread
      refine ⟨s.splitOn ':', hgroups, (List.intercalate_splitOn ':').symm, ?_⟩
      rw [eq_comm, ← List.forall₂_eq_eq_eq, List.forall₂_map_left_iff]
      exact hvalues
    · rintro ⟨ts, hts, rfl, rfl⟩
      have hts' : ts ≠ [] := by
        rintro rfl
        exact hne rfl
      rw [List.splitOn_intercalate ':' (fun t ht => (hts t ht).not_mem rfl) hts',
        List.forall₂_map_right_iff]
      exact List.forall₂_same.mpr fun t ht => parseGroup_eq_some_iff.mpr ⟨hts t ht, rfl⟩

/-! ### Colons -/

/-- A text without colons may have one before and one behind it, if it is not empty. -/
theorem noPair_append {s t : List Char} {x : Char} (ht : ':' ∉ t) (hne : t ≠ [])
    (hs : NoPair ':' (':' :: s)) : NoPair ':' (x :: t ++ ':' :: s) := by
  induction t generalizing x with
  | nil => exact absurd rfl hne
  | cons y t ih =>
    obtain ⟨hy, ht⟩ := not_or.mp (List.mem_cons.not.mp ht)
    refine List.isChain_cons_cons.mpr ⟨fun h => hy h.2.symm, ?_⟩
    cases t with
    | nil => exact List.isChain_cons_cons.mpr ⟨fun h => hy h.1.symm, hs⟩
    | cons z t => exact ih ht (List.cons_ne_nil _ _)

/-- No two colons in a row, with one before and one behind the groups. -/
theorem Joined.noPair {t : List Char} {g : List ℕ} (h : Joined t g) (hne : t ≠ []) :
    NoPair ':' (':' :: t ++ [':']) := by
  obtain ⟨ts, hts, rfl, -⟩ := h
  clear g
  induction ts with
  | nil => exact absurd rfl hne
  | cons t ts ih =>
    have ht := hts t List.mem_cons_self
    cases ts with
    | nil =>
      rw [List.intercalate_singleton]
      exact noPair_append (ht.not_mem rfl) ht.ne_nil (List.isChain_singleton _)
    | cons t' ts =>
      have hrest : ∀ u ∈ t' :: ts, IsGroup u := fun u hu => hts u (List.mem_cons_of_mem _ hu)
      have hne' : [':'].intercalate (t' :: ts) ≠ [] := fun hnil =>
        List.cons_ne_nil _ _ (List.map_eq_nil_iff.mp
          ((Joined.eq_nil_iff ⟨t' :: ts, hrest, rfl, rfl⟩).mp hnil))
      have ih := ih hrest hne'
      rw [List.intercalate_cons_cons]
      have happend := noPair_append (x := ':') (ht.not_mem rfl) ht.ne_nil ih
      simpa using happend

theorem Joined.noPair_left {t : List Char} {g : List ℕ} (h : Joined t g) :
    NoPair ':' (t ++ [':']) := by
  by_cases hne : t = []
  · rw [hne]
    exact List.isChain_singleton _
  · exact (h.noPair hne).tail

theorem Joined.noPair_right {t : List Char} {g : List ℕ} (h : Joined t g) :
    NoPair ':' (':' :: t) := by
  by_cases hne : t = []
  · rw [hne]
    exact List.isChain_singleton _
  · exact (h.noPair hne).left_of_append

theorem Joined.getLast {t : List Char} {g : List ℕ} (h : Joined t g) : t.getLast? ≠ some ':' := by
  intro hlast
  obtain ⟨t', rfl⟩ := List.getLast?_eq_some_iff.mp hlast
  have hpair := h.noPair_left
  rw [List.append_assoc] at hpair
  exact (List.isChain_cons_cons.mp hpair.right_of_append).1 ⟨rfl, rfl⟩

theorem dropColon_of_joined {t : List Char} {g : List ℕ} (h : Joined t g) : dropColon t = t := by
  rw [dropColon, if_neg h.getLast]

theorem dropColon_append (t : List Char) : dropColon (t ++ [':']) = t := by
  rw [dropColon, if_pos List.getLast?_concat, List.dropLast_concat]

/-- One colon at the end is dropped, if there is one. -/
theorem dropColon_cases (t : List Char) :
    dropColon t = t ∧ t.getLast? ≠ some ':' ∨ t = dropColon t ++ [':'] := by
  rw [dropColon]
  split
  · rename_i h
    obtain ⟨t', rfl⟩ := List.getLast?_eq_some_iff.mp h
    exact .inr (by rw [List.dropLast_concat])
  · rename_i h
    exact .inl ⟨rfl, h⟩

/-! ### The parser on texts of the grammar -/

theorem peelIpv4_of_not_mem {s : List Char} (h : '.' ∉ s) : peelIpv4 s = some (s, []) := by
  rw [peelIpv4]
  split
  · rename_i before after hcut
    obtain ⟨rfl, -⟩ := cutLast_eq_some_iff.mp hcut
    exact if_neg fun hmem => h (List.mem_append_right _ (List.mem_cons_of_mem _ hmem))
  · rfl

theorem peelIpv4_dotted {v : List Char} {o : List ℕ} (h : Dotted v o) (s : List Char) :
    peelIpv4 (s ++ ':' :: v) = some (s ++ [':'], octetGroups o) := by
  rw [peelIpv4, cutLast_append (h.not_mem rfl (by decide))]
  dsimp only
  rw [if_pos h.point_mem, parseIpv4_eq_some_iff.mpr h]
  rfl

theorem peelIpv4_append (s t : List Char) :
    peelIpv4 (s ++ ':' :: t) = (peelIpv4 (':' :: t)).map fun p => (s ++ p.1, p.2) := by
  rw [peelIpv4, peelIpv4, cutLast_append_left List.mem_cons_self]
  cases hcut : cutLast ':' (':' :: t) with
  | none => exact absurd List.mem_cons_self (cutLast_eq_none_iff.mp hcut)
  | some p =>
    rw [Option.map_some]
    dsimp only
    split
    · rw [Option.map_map]
      exact congrArg (Option.map · _) (funext fun v4 => by simp)
    · rfl

/-- What an ending is behind a colon: groups, perhaps with a colon, and the groups of the tail. -/
theorem Ending.peel {t : List Char} {b : List ℕ} (h : Ending t b) :
    ∃ p v g, peelIpv4 (':' :: t) = some (':' :: p, v) ∧ Joined (dropColon p) g ∧
      NoPair ':' (':' :: p) ∧ b = g ++ v := by
  cases h with
  | groups h =>
    have hpoint : '.' ∉ ':' :: t := List.mem_cons.not.mpr
      (not_or.mpr ⟨by decide, h.not_mem rfl (by decide)⟩)
    exact ⟨t, [], _, peelIpv4_of_not_mem hpoint, by rwa [dropColon_of_joined h], h.noPair_right,
      (List.append_nil _).symm⟩
  | dotted h => exact ⟨[], _, [], peelIpv4_dotted h [], joined_nil, List.isChain_singleton _, rfl⟩
  | @behind t g v o h hne hv =>
    exact ⟨t ++ [':'], _, g, peelIpv4_dotted hv (':' :: t), by rwa [dropColon_append], h.noPair hne,
      rfl⟩

/-- Neither `%` nor another character that is not written in an address. -/
theorem Ending.not_mem {t : List Char} {b : List ℕ} (h : Ending t b) {c : Char}
    (hhex : isHexDigit c = false) (hcolon : c ≠ ':') (hpoint : c ≠ '.') : c ∉ t := by
  have hdigit : c.isDigit = false := by
    rw [isHexDigit, Bool.or_eq_false_iff, Bool.or_eq_false_iff] at hhex
    exact hhex.1.1
  cases h with
  | groups h => exact h.not_mem hhex hcolon
  | dotted h => exact h.not_mem hdigit hpoint
  | behind h _ hv =>
    rw [List.mem_append, List.mem_cons]
    rintro (hc | hc | hc)
    · exact h.not_mem hhex hcolon hc
    · exact hcolon hc
    · exact hv.not_mem hdigit hpoint hc

theorem Denotes.not_mem {s : List Char} {g : List ℕ} (h : Denotes s g) {c : Char}
    (hhex : isHexDigit c = false) (hcolon : c ≠ ':') (hpoint : c ≠ '.') : c ∉ s := by
  cases h with
  | full h _ => exact h.not_mem hhex hcolon hpoint
  | run ha hb _ =>
    rw [List.mem_append, List.mem_cons, List.mem_cons]
    rintro (hc | hc | hc | hc)
    · exact ha.not_mem hhex hcolon hc
    · exact hcolon hc
    · exact hcolon hc
    · exact hb.not_mem hhex hcolon hpoint hc

theorem stripZone_eq_self {s : List Char} (h : '%' ∉ s) : stripZone s = s := by
  rw [stripZone, List.takeWhile_eq_self_iff]
  intro c hc
  exact decide_eq_true fun heq => h (heq ▸ hc)

theorem parseIpv6_eq {s : List Char} (h : '%' ∉ s) (hne : s ≠ []) :
    parseIpv6 s = (peelIpv4 s).bind fun p => expand p.1 p.2 := by
  rw [parseIpv6, stripZone_eq_self h]
  exact if_neg hne

theorem expand_of_noPair {s : List Char} {g v : List ℕ} (hpair : NoPair ':' s)
    (hg : Joined (dropColon s) g) (hlen : (g ++ v).length = 8) : expand s v = some (g ++ v) := by
  rw [expand, cutPair_eq_none_iff.mpr hpair]
  dsimp only
  rw [parseGroups_eq_some_iff.mpr hg, Option.bind_some, if_neg]
  rw [List.length_append] at hlen
  omega

theorem expand_of_pair {h p : List Char} {a g v : List ℕ} (ha : Joined h a)
    (hpair : NoPair ':' (':' :: p)) (hg : Joined (dropColon p) g)
    (hlen : a.length + (g ++ v).length ≤ 8) :
    expand (h ++ ':' :: ':' :: p) v = some (filled a (g ++ v)) := by
  rw [expand, cutPair_append ha.noPair_left]
  dsimp only
  rw [cutPair_eq_none_iff.mpr hpair, if_neg (by simp), dropColon_of_joined ha,
    parseGroups_eq_some_iff.mpr ha, Option.bind_some, parseGroups_eq_some_iff.mpr hg,
    Option.bind_some, if_neg (by omega)]
  rfl

/-- A text with `::` is read if it has eight groups at most. -/
theorem parse_run {h t : List Char} {a b : List ℕ} (ha : Joined h a) (hb : Ending t b)
    (hlen : a.length + b.length ≤ 8) : parseIpv6 (h ++ ':' :: ':' :: t) = some (filled a b) := by
  obtain ⟨p, v, g, hpeel, hg, hpair, rfl⟩ := hb.peel
  have hzone : '%' ∉ h ++ ':' :: ':' :: t := by
    rw [List.mem_append, List.mem_cons, List.mem_cons]
    rintro (hc | hc | hc | hc)
    · exact ha.not_mem rfl (by decide) hc
    · cases hc
    · cases hc
    · exact hb.not_mem rfl (by decide) (by decide) hc
  rw [parseIpv6_eq hzone (by simp), List.append_cons, peelIpv4_append, hpeel, Option.map_some,
    Option.bind_some]
  dsimp only
  rw [← List.append_cons]
  exact expand_of_pair ha hpair hg hlen

theorem Dotted.length_octetGroups {v : List Char} {o : List ℕ} (h : Dotted v o) :
    (octetGroups o).length = 2 := by
  match o, h.1 with
  | [a, b, c, d], _ => rfl

/-- A text without `::` is read if it has eight groups. -/
theorem parse_full {s : List Char} {g : List ℕ} (h : Ending s g) (hlen : g.length = 8) :
    parseIpv6 s = some g := by
  have hne : s ≠ [] := by
    intro hnil
    cases h with
    | groups h => simp [h.eq_nil_iff.mp hnil] at hlen
    | dotted h => exact List.ne_nil_of_mem h.point_mem hnil
    | behind => simp at hnil
  rw [parseIpv6_eq (h.not_mem rfl (by decide) (by decide)) hne]
  cases h with
  | groups h =>
    rw [peelIpv4_of_not_mem (h.not_mem rfl (by decide)), Option.bind_some]
    have hread := expand_of_noPair (v := []) h.noPair_right.tail
      (by rwa [List.tail_cons, dropColon_of_joined h]) (by rwa [List.append_nil])
    rwa [List.append_nil] at hread
  | dotted h =>
    rw [h.length_octetGroups] at hlen
    cases hlen
  | behind h _ hv =>
    rw [peelIpv4_dotted hv, Option.bind_some]
    exact expand_of_noPair h.noPair_left (by rwa [dropColon_append]) hlen

/-- **A text of the grammar is read as what it stands for.** -/
theorem Denotes.parse {s : List Char} {g : List ℕ} (h : Denotes s g) : parseIpv6 s = some g := by
  cases h with
  | full h hlen => exact parse_full h hlen
  | run ha hb hlen => exact parse_run ha hb hlen.le

/-- **Stray texts are read.** -/
theorem Stray.parse {s : List Char} (h : Stray s) : ∃ g, parseIpv6 s = some g := by
  cases h with
  | noRun ha hb hlen => exact ⟨_, parse_run ha hb hlen.le⟩
  | @colonFull s g h hlen =>
    have hzone : '%' ∉ s ++ [':'] := by
      rw [List.mem_append, List.mem_singleton]
      rintro (hc | hc)
      · exact h.not_mem rfl (by decide) hc
      · cases hc
    have hpoint : '.' ∉ s ++ [':'] := by
      rw [List.mem_append, List.mem_singleton]
      rintro (hc | hc)
      · exact h.not_mem rfl (by decide) hc
      · cases hc
    refine ⟨g ++ [], ?_⟩
    rw [parseIpv6_eq hzone (by simp), peelIpv4_of_not_mem hpoint, Option.bind_some]
    exact expand_of_noPair h.noPair_left (by rwa [dropColon_append]) (by rwa [List.append_nil])
  | @colonRun h t a b ha hb hne hlen =>
    have hmem : ∀ c : Char, isHexDigit c = false → c ≠ ':' →
        c ∉ h ++ ':' :: ':' :: (t ++ [':']) := by
      intro c hhex hcolon
      simp only [List.mem_append, List.mem_cons, List.not_mem_nil, or_false]
      rintro (hc | hc | hc | hc | hc)
      · exact ha.not_mem hhex hcolon hc
      · exact hcolon hc
      · exact hcolon hc
      · exact hb.not_mem hhex hcolon hc
      · exact hcolon hc
    refine ⟨filled a (b ++ []), ?_⟩
    rw [parseIpv6_eq (hmem '%' rfl (by decide)) (by simp),
      peelIpv4_of_not_mem (hmem '.' rfl (by decide)), Option.bind_some]
    exact expand_of_pair ha (hb.noPair hne) (by rwa [dropColon_append])
      (by rwa [List.append_nil])

/-! ### What the parser reads -/

theorem peelIpv4_eq_some {s p : List Char} {v : List ℕ} (h : peelIpv4 s = some (p, v)) :
    p = s ∧ v = [] ∨ ∃ before after o, s = before ++ ':' :: after ∧ Dotted after o ∧
      p = before ++ [':'] ∧ v = octetGroups o := by
  rw [peelIpv4] at h
  split at h
  · rename_i before after hcut
    obtain ⟨rfl, -⟩ := cutLast_eq_some_iff.mp hcut
    split at h
    · obtain ⟨o, ho, heq⟩ := Option.map_eq_some_iff.mp h
      obtain ⟨rfl, rfl⟩ := Prod.mk.inj heq
      exact .inr ⟨before, after, o, rfl, parseIpv4_eq_some_iff.mp ho, rfl, rfl⟩
    · obtain ⟨rfl, rfl⟩ := Prod.mk.inj (Option.some.inj h)
      exact .inl ⟨rfl, rfl⟩
  · obtain ⟨rfl, rfl⟩ := Prod.mk.inj (Option.some.inj h)
    exact .inl ⟨rfl, rfl⟩

theorem expand_eq_some {s : List Char} {g v : List ℕ} (h : expand s v = some g) :
    (∃ a, Joined (dropColon s) a ∧ (a ++ v).length = 8 ∧ g = a ++ v) ∨
      ∃ h p a b, s = h ++ ':' :: ':' :: p ∧ Joined h a ∧ NoPair ':' (':' :: p) ∧
        Joined (dropColon p) b ∧ a.length + (b ++ v).length ≤ 8 ∧ g = filled a (b ++ v) := by
  rw [expand] at h
  split at h
  · obtain ⟨a, ha, h⟩ := Option.bind_eq_some_iff.mp h
    split at h
    · cases h
    · rename_i hlen
      refine .inl ⟨a, parseGroups_eq_some_iff.mp ha, ?_, (Option.some.inj h).symm⟩
      rw [List.length_append]
      exact not_not.mp hlen
  · rename_i headStr tailStr hcut
    obtain ⟨rfl, hpair⟩ := cutPair_eq_some_iff.mp hcut
    split at h
    · cases h
    · rename_i hmore
      obtain ⟨a, ha, h⟩ := Option.bind_eq_some_iff.mp h
      obtain ⟨b, hb, h⟩ := Option.bind_eq_some_iff.mp h
      dsimp only at h
      split at h
      · cases h
      · rename_i hlen
        have hdrop : dropColon headStr = headStr := by
          rcases dropColon_cases headStr with ⟨hdrop, -⟩ | hcolon
          · exact hdrop
          · rw [hcolon, List.append_assoc] at hpair
            exact absurd ⟨rfl, rfl⟩ (List.isChain_cons_cons.mp hpair.right_of_append).1
        rw [hdrop] at ha
        refine .inr ⟨headStr, tailStr, a, b, rfl, parseGroups_eq_some_iff.mp ha, ?_,
          parseGroups_eq_some_iff.mp hb, not_lt.mp hlen, (Option.some.inj h).symm⟩
        rw [← cutPair_eq_none_iff]
        exact Option.not_isSome_iff_eq_none.mp hmore

/-- With eight groups beside it a `::` is stray, and with fewer it is not. -/
theorem denotes_or_stray {h t : List Char} {a b : List ℕ} (ha : Joined h a) (hb : Ending t b)
    (hlen : a.length + b.length ≤ 8) :
    Denotes (h ++ ':' :: ':' :: t) (filled a b) ∨ Stray (h ++ ':' :: ':' :: t) := by
  rcases hlen.lt_or_eq with hlt | heq
  · exact .inl (.run ha hb hlt)
  · exact .inr (.noRun ha hb heq)

theorem ne_nil_of_noPair {p : List Char} (h : NoPair ':' (':' :: (p ++ [':']))) : p ≠ [] := by
  rintro rfl
  exact (List.isChain_cons_cons.mp h).1 ⟨rfl, rfl⟩

/-- Without an IPv4 tail, a colon at the end makes a text stray. -/
theorem denotes_or_stray_of_expand {s : List Char} {g : List ℕ} (h : expand s [] = some g) :
    Denotes s g ∨ Stray s := by
  rcases expand_eq_some h with ⟨a, ha, hlen, rfl⟩ | ⟨u, t, a, b, rfl, ha, hpair, hb, hlen, rfl⟩
  · rw [List.append_nil] at hlen ⊢
    rcases dropColon_cases s with ⟨hdrop, -⟩ | hcolon
    · rw [hdrop] at ha
      exact .inl (.full (.groups ha) hlen)
    · rw [hcolon]
      exact .inr (.colonFull ha hlen)
  · rw [List.append_nil] at hlen ⊢
    rcases dropColon_cases t with ⟨hdrop, -⟩ | hcolon
    · rw [hdrop] at hb
      exact denotes_or_stray ha (.groups hb) hlen
    · rw [hcolon] at hpair ⊢
      exact .inr (.colonRun ha hb (ne_nil_of_noPair hpair) hlen)

/-- In front of an IPv4 tail there is a colon to drop. -/
theorem denotes_or_stray_of_dotted {s v : List Char} {o g : List ℕ} (hv : Dotted v o)
    (h : expand (s ++ [':']) (octetGroups o) = some g) :
    Denotes (s ++ ':' :: v) g ∨ Stray (s ++ ':' :: v) := by
  rcases expand_eq_some h with ⟨a, ha, hlen, rfl⟩ | ⟨u, t, a, b, heq, ha, hpair, hb, hlen, rfl⟩
  · rw [dropColon_append] at ha
    refine .inl (.full (.behind ha (fun hnil => ?_) hv) hlen)
    rw [ha.eq_nil_iff.mp hnil, List.nil_append, hv.length_octetGroups] at hlen
    cases hlen
  · rcases List.eq_nil_or_concat t with rfl | ⟨t', c, rfl⟩
    · have hparts : s = u ++ [':'] ∧ [':'] = [':'] := List.append_inj'
        (by rw [heq, List.append_assoc]; rfl) rfl
      have hs := hparts.1
      rw [show b = [] from hb.eq_nil_iff.mp rfl, List.nil_append] at hlen ⊢
      rw [hs, List.append_assoc]
      exact denotes_or_stray ha (.dotted hv) hlen
    · have hparts : s = u ++ ':' :: ':' :: t' ∧ [':'] = [c] := List.append_inj'
        (by rw [heq, List.append_assoc]; simp) rfl
      obtain ⟨rfl, hc⟩ := hparts
      rw [← List.head_eq_of_cons_eq hc, List.concat_eq_append] at hb hpair
      rw [dropColon_append] at hb
      rw [List.append_assoc]
      exact denotes_or_stray ha (.behind hb (ne_nil_of_noPair hpair) hv) hlen

/-- **What is read is a text of the grammar, or a stray one.** -/
theorem denotes_or_stray_of_parse {input : List Char} {g : List ℕ}
    (h : parseIpv6 input = some g) :
    Denotes (stripZone input) g ∨ Stray (stripZone input) := by
  rw [parseIpv6] at h
  generalize stripZone input = s at h ⊢
  split at h
  · cases h
  obtain ⟨⟨p, v⟩, hpeel, hexpand⟩ := Option.bind_eq_some_iff.mp h
  rcases peelIpv4_eq_some hpeel with ⟨rfl, rfl⟩ | ⟨before, after, o, rfl, hv, rfl, rfl⟩
  · exact denotes_or_stray_of_expand hexpand
  · exact denotes_or_stray_of_dotted hv hexpand

/-! ### Stray texts are outside the grammar -/

theorem Joined.unique {t : List Char} {g g' : List ℕ} (h : Joined t g) (h' : Joined t g') :
    g = g' :=
  Option.some.inj ((parseGroups_eq_some_iff.mpr h).symm.trans (parseGroups_eq_some_iff.mpr h'))

theorem Ending.unique {t : List Char} {b b' : List ℕ} (h : Ending t b) (h' : Ending t b') :
    b = b' := by
  obtain ⟨p, v, g, hpeel, hg, -, rfl⟩ := h.peel
  obtain ⟨p', v', g', hpeel', hg', -, rfl⟩ := h'.peel
  obtain ⟨hp, rfl⟩ := Prod.mk.inj (Option.some.inj (hpeel.symm.trans hpeel'))
  obtain rfl := List.tail_eq_of_cons_eq hp
  rw [hg.unique hg']

theorem noPair_of_not_mem {v : List Char} (h : ':' ∉ v) (x : Char) : NoPair ':' (x :: v) := by
  induction v generalizing x with
  | nil => exact List.isChain_singleton x
  | cons y v ih =>
    obtain ⟨hy, hv⟩ := not_or.mp (List.mem_cons.not.mp h)
    exact List.isChain_cons_cons.mpr ⟨fun hxy => hy hxy.2.symm, ih hv y⟩

theorem Ending.noPair {t : List Char} {b : List ℕ} (h : Ending t b) : NoPair ':' t := by
  cases h with
  | groups h => exact h.noPair_right.tail
  | dotted h => exact (noPair_of_not_mem (h.not_mem rfl (by decide)) ':').tail
  | behind h hne hv =>
    have hleft := h.noPair_left
    rw [NoPair, List.isChain_append] at hleft ⊢
    exact ⟨hleft.1, noPair_of_not_mem (hv.not_mem rfl (by decide)) ':', hleft.2.2⟩

theorem Ending.getLast {t : List Char} {b : List ℕ} (h : Ending t b) : t.getLast? ≠ some ':' := by
  cases h with
  | groups h => exact h.getLast
  | dotted h => exact fun hlast => h.not_mem rfl (by decide) (List.mem_of_getLast? hlast)
  | behind h hne hv =>
    obtain ⟨c, v', rfl⟩ := List.exists_cons_of_ne_nil (List.ne_nil_of_mem hv.point_mem)
    intro hlast
    rw [List.getLast?_append_of_ne_nil _ (List.cons_ne_nil _ _), List.getLast?_cons_cons] at hlast
    exact hv.not_mem rfl (by decide) (List.mem_of_getLast? hlast)

/-- A text with `::` is no text without, and its parts are those around the `::`. -/
theorem Denotes.parts {h t : List Char} {a : List ℕ} {g : List ℕ} (ha : Joined h a)
    (hd : Denotes (h ++ ':' :: ':' :: t) g) :
    ∃ b, Ending t b ∧ a.length + b.length < 8 := by
  have hcut := cutPair_append (b := t) ha.noPair_left
  generalize hs : h ++ ':' :: ':' :: t = s at hd hcut
  cases hd with
  | full hend _ =>
    rw [cutPair_eq_none_iff.mpr hend.noPair] at hcut
    cases hcut
  | run ha' hb' hlen =>
    rw [cutPair_append ha'.noPair_left] at hcut
    obtain ⟨rfl, rfl⟩ := Prod.mk.inj (Option.some.inj hcut)
    exact ⟨_, hb', by rwa [ha.unique ha']⟩

/-- **A stray text is not a text of the grammar.** -/
theorem Stray.not_denotes {s : List Char} (h : Stray s) (g : List ℕ) : ¬ Denotes s g := by
  intro hd
  cases h with
  | noRun ha hb hlen =>
    obtain ⟨b', hb', hlt⟩ := hd.parts ha
    rw [hb'.unique hb] at hlt
    omega
  | colonRun ha hb hne _ =>
    obtain ⟨b', hb', -⟩ := hd.parts ha
    exact hb'.getLast List.getLast?_concat
  | @colonFull s' g' h hlen =>
    generalize hs : s' ++ [':'] = s at hd
    cases hd with
    | full hend _ => exact hend.getLast (by rw [← hs, List.getLast?_concat])
    | run ha hb _ =>
      have hcut := cutPair_eq_none_iff.mpr h.noPair_left
      rw [hs, cutPair_append ha.noPair_left] at hcut
      cases hcut

/-- A zone says nothing of the address. -/
theorem parseIpv6_stripZone {input : List Char} (hne : stripZone input ≠ []) :
    parseIpv6 (stripZone input) = parseIpv6 input := by
  have hstrip : '%' ∉ stripZone input := fun hmem => by
    have hmark := List.mem_takeWhile_imp hmem
    simp at hmark
  rw [parseIpv6_eq hstrip hne, parseIpv6]
  exact (if_neg hne).symm

/-- A text that is not stray is read as the grammar has it. -/
theorem parse_agrees {input : List Char} (hstray : ¬ Stray (stripZone input)) (g : List ℕ) :
    parseIpv6 input = some g ↔ Denotes (stripZone input) g := by
  refine ⟨fun h => (denotes_or_stray_of_parse h).resolve_right hstray, fun h => ?_⟩
  have hg := h.parse
  rwa [parseIpv6_stripZone] at hg
  intro hnil
  rw [hnil] at hg
  cases hg

/-- **The parser reads the grammar, where a text is not stray.** A stray text is one with a `::`
between eight groups, where it stands for none, or with a colon at its end behind groups and not
before an IPv4 tail. -/
theorem parse_agrees_iff (input : List Char) :
    (∀ g, parseIpv6 input = some g ↔ Denotes (stripZone input) g) ↔ ¬ Stray (stripZone input) := by
  refine ⟨fun h hstray => ?_, fun hstray => parse_agrees hstray⟩
  obtain ⟨g, hg⟩ := hstray.parse
  have hne : stripZone input ≠ [] := by
    intro hnil
    rw [hnil] at hg
    cases hg
  rw [parseIpv6_stripZone hne] at hg
  exact hstray.not_denotes g ((h g).mp hg)

/-- Eight groups and a colon, and a `::` for no group: both are read. -/
theorem not_parse_agrees :
    ¬ ∀ input g, parseIpv6 input = some g ↔ Denotes (stripZone input) g := by
  intro h
  have hread : parseIpv6
      ['1', ':', '2', ':', '3', ':', '4', ':', ':', '5', ':', '6', ':', '7', ':', '8']
        = some [1, 2, 3, 4, 5, 6, 7, 8] := by decide +kernel
  have hstray : Stray
      ['1', ':', '2', ':', '3', ':', '4', ':', ':', '5', ':', '6', ':', '7', ':', '8'] :=
    .noRun (h := ['1', ':', '2', ':', '3', ':', '4']) (t := ['5', ':', '6', ':', '7', ':', '8'])
      (parseGroups_eq_some_iff.mp (show _ = some [1, 2, 3, 4] by decide +kernel))
      (.groups (parseGroups_eq_some_iff.mp (show _ = some [5, 6, 7, 8] by decide +kernel))) rfl
  exact hstray.not_denotes _ ((h _ _).mp hread)

end ThrottleKit.Security
