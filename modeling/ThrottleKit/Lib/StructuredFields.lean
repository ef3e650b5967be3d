import Mathlib.Algebra.Group.Nat.Defs
import Mathlib.Data.List.Basic
import Mathlib.Data.Rat.Defs
import Mathlib.Tactic.Common

/-!
# Structured fields

The values of HTTP fields that are lists, after RFC 9651: items with parameters, and inner lists of
them. The reader is that of section 4.2 of the RFC, which says for every text whether it is a list
and of what. It refuses what is not ASCII before anything else.

The writer here is for items that are strings, with numbers for parameters. How a number is written
is open: `Short` texts are the integers that the grammar has, of up to 15 digits, and `Long` ones
are what a writer of numbers makes of larger ones, digits or an exponent. No parameter with a
`Long` text is read.

## Main definitions

* `Bare`, `Item`, `Member`, `parseList` — lists, and their reader
* `printString`, `printParameters` — an item that is a string, with numbers for parameters

## Main results

* `parseChars_flatMap` — a string is read back
* `parseNumber_toDigits`, `Long.parseNumber` — the integers that are read, and the numbers that are
  not
* `parseList_eq_some_iff` — which printed items are read back
-/

namespace StructuredFields

/-! ### Lists -/

/-- A bare item. -/
inductive Bare
  | integer (n : ℤ)
  | decimal (x : ℚ)
  | string (s : List Char)
  | token (s : List Char)
  /-- The base64 text of a byte sequence. -/
  | bytes (base64 : List Char)
  | boolean (b : Bool)
  | date (n : ℤ)
  | display (s : String)
deriving DecidableEq

/-- The parameters, in the order of their keys. -/
abbrev Parameters := List (List Char × Bare)

/-- An item. -/
structure Item where
  value : Bare
  params : Parameters
deriving DecidableEq

/-- A member of a list. -/
inductive Member
  | item (item : Item)
  | inner (items : List Item) (params : Parameters)
deriving DecidableEq

/-! ### The reader -/

variable {α : Type}

/-- A character of a string that stands for itself: a visible one, or a space. -/
def isVisible (c : Char) : Bool := 0x20 ≤ c.toNat && c.toNat < 0x7f

/-- A digit of a percent-encoded byte. -/
def hexVal (c : Char) : Option ℕ :=
  if c.isDigit then some (c.toNat - '0'.toNat)
  else if 'a' ≤ c ∧ c ≤ 'f' then some (c.toNat - 'a'.toNat + 10)
  else none

/-- The number of a row of digits. -/
def digitsVal (digits : List Char) : ℕ := Nat.ofDigitChars 10 digits 0

/-- The digits of a number, and the fraction if there is one. -/
def parseMagnitude (cs : List Char) : Option ((ℕ × Option (List Char)) × List Char) :=
  let digits := cs.takeWhile Char.isDigit
  if digits = [] then none
  else match cs.dropWhile Char.isDigit with
    | '.' :: rest =>
      let fraction := rest.takeWhile Char.isDigit
      if digits.length ≤ 12 ∧ fraction ≠ [] ∧ fraction.length ≤ 3 then
        some ((digitsVal digits, some fraction), rest.dropWhile Char.isDigit)
      else none
    | rest => if digits.length ≤ 15 then some ((digitsVal digits, none), rest) else none

/-- An integer or a decimal, without its sign. -/
def ofMagnitude (sign : ℤ) : ℕ × Option (List Char) → Bare
  | (n, none) => .integer (sign * n)
  | (n, some fraction) => .decimal (sign * (n + digitsVal fraction / 10 ^ fraction.length))

/-- An integer or a decimal. -/
def parseNumber : List Char → Option (Bare × List Char)
  | '-' :: cs => (parseMagnitude cs).map fun r => (ofMagnitude (-1) r.1, r.2)
  | cs => (parseMagnitude cs).map fun r => (ofMagnitude 1 r.1, r.2)

/-- Put `c` before what was read. -/
def consTo (c : α) (r : Option (List α × List Char)) : Option (List α × List Char) :=
  r.map fun r => (c :: r.1, r.2)

/-- A string behind its opening quote. -/
def parseChars : List Char → Option (List Char × List Char)
  | [] => none
  | '\\' :: '"' :: cs => consTo '"' (parseChars cs)
  | '\\' :: '\\' :: cs => consTo '\\' (parseChars cs)
  | c :: cs =>
    if c = '\\' then none
    else if c = '"' then some ([], cs)
    else if isVisible c then consTo c (parseChars cs)
    else none

/-- The bytes of a display string behind its opening quote. -/
def parseDisplay : List Char → Option (List UInt8 × List Char)
  | [] => none
  | '%' :: c :: d :: cs =>
    match hexVal c, hexVal d with
    | some x, some y => consTo (UInt8.ofNat (16 * x + y)) (parseDisplay cs)
    | _, _ => none
  | c :: cs =>
    if c = '%' then none
    else if c = '"' then some ([], cs)
    else if isVisible c then consTo (UInt8.ofNat c.toNat) (parseDisplay cs)
    else none

/-- A character of a token after the first. -/
def isTokenChar (c : Char) : Bool := c.isAlphanum || "!#$%&'*+-.^_\x60|~:/".toList.contains c

/-- A character of base64. -/
def isBase64Char (c : Char) : Bool := c.isAlphanum || c = '+' || c = '/' || c = '='

/-- A bare item. -/
def parseBare : List Char → Option (Bare × List Char)
  | '"' :: cs => (parseChars cs).map fun r => (.string r.1, r.2)
  | ':' :: cs =>
    match cs.dropWhile isBase64Char with
    | ':' :: rest => some (.bytes (cs.takeWhile isBase64Char), rest)
    | _ => none
  | '?' :: '1' :: cs => some (.boolean true, cs)
  | '?' :: '0' :: cs => some (.boolean false, cs)
  | '@' :: cs =>
    match parseNumber cs with
    | some (.integer n, rest) => some (.date n, rest)
    | _ => none
  | '%' :: '"' :: cs =>
    (parseDisplay cs).bind fun r => (String.fromUTF8? ⟨r.1.toArray⟩).map fun s => (.display s, r.2)
  | c :: cs =>
    if c = '-' ∨ c.isDigit then parseNumber (c :: cs)
    else if c.isAlpha ∨ c = '*' then
      some (.token (c :: cs.takeWhile isTokenChar), cs.dropWhile isTokenChar)
    else none
  | [] => none

/-- A character that a key can begin with. -/
def isKeyStart (c : Char) : Bool := c.isLower || c = '*'

/-- A character of a key after the first. -/
def isKeyChar (c : Char) : Bool :=
  c.isLower || c.isDigit || c = '_' || c = '-' || c = '.' || c = '*'

/-- A key. -/
def parseKey : List Char → Option (List Char × List Char)
  | c :: cs =>
    if isKeyStart c then some (c :: cs.takeWhile isKeyChar, cs.dropWhile isKeyChar) else none
  | [] => none

/-- Set a parameter, in its place if it is there. -/
def setParameter (params : Parameters) (key : List Char) (value : Bare) : Parameters :=
  if params.any (·.1 = key) then params.map fun p => if p.1 = key then (key, value) else p
  else params ++ [(key, value)]

/-- Parameters, read in so many rounds at most. -/
def parseParameters : ℕ → Parameters → List Char → Option (Parameters × List Char)
  | rounds + 1, params, ';' :: cs =>
    (parseKey (cs.dropWhile (· = ' '))).bind fun k =>
      match k.2 with
      | '=' :: cs =>
        (parseBare cs).bind fun r => parseParameters rounds (setParameter params k.1 r.1) r.2
      | cs => parseParameters rounds (setParameter params k.1 (.boolean true)) cs
  | _, params, cs => some (params, cs)

/-- An item. -/
def parseItem (cs : List Char) : Option (Item × List Char) :=
  (parseBare cs).bind fun r =>
    (parseParameters cs.length [] r.2).map fun p => (⟨r.1, p.1⟩, p.2)

/-- The items of an inner list behind its opening parenthesis. -/
def parseInner : ℕ → List Char → Option (List Item × List Char)
  | 0, _ => none
  | rounds + 1, cs =>
    match cs.dropWhile (· = ' ') with
    | ')' :: rest => some ([], rest)
    | cs =>
      (parseItem cs).bind fun r =>
        match r.2 with
        | ' ' :: _ | ')' :: _ => consTo r.1 (parseInner rounds r.2)
        | _ => none

/-- A member of a list. -/
def parseMember : List Char → Option (Member × List Char)
  | '(' :: cs =>
    (parseInner (cs.length + 1) cs).bind fun r =>
      (parseParameters cs.length [] r.2).map fun p => (.inner r.1 p.1, p.2)
  | cs => (parseItem cs).map fun r => (.item r.1, r.2)

/-- Optional whitespace. -/
def skipWs (cs : List Char) : List Char := cs.dropWhile fun c => c = ' ' ∨ c = '\t'

/-- The members of a list that is not empty. -/
def parseMembers : ℕ → List Char → Option (List Member)
  | 0, _ => none
  | rounds + 1, cs =>
    (parseMember cs).bind fun r =>
      match skipWs r.2 with
      | [] => some [r.1]
      | ',' :: rest => (parseMembers rounds (skipWs rest)).map (r.1 :: ·)
      | _ => none

/-- A list. -/
def parseList (cs : List Char) : Option (List Member) :=
  if cs.all (·.toNat < 0x80) then
    match cs.dropWhile (· = ' ') with
    | [] => some []
    | cs => parseMembers (cs.length + 1) cs
  else none

/-! ### The writer -/

/-- A character of a string, escaped. -/
def escape (c : Char) : List Char := if c = '"' ∨ c = '\\' then ['\\', c] else [c]

/-- A string. -/
def printString (s : List Char) : List Char := '"' :: (s.flatMap escape ++ ['"'])

/-- Parameters that are numbers, each with its text. -/
def printParameters (params : List (List Char × List Char)) : List Char :=
  params.flatMap fun p => ';' :: (p.1 ++ '=' :: p.2)

/-- The text of a number that is too long for the grammar: more digits than it has, or an
exponent. -/
inductive Long : List Char → Prop
  | digits {ds : List Char} (hds : ds.all Char.isDigit = true) (hlength : 16 ≤ ds.length) : Long ds
  | exponent {ds : List Char} (hds : ds.all Char.isDigit = true) (hne : ds ≠ [])
      (tail : List Char) : Long (ds ++ 'e' :: tail)
  | fraction {ds fs : List Char} (hds : ds.all Char.isDigit = true) (hne : ds ≠ [])
      (hfs : fs.all Char.isDigit = true) (tail : List Char) :
      Long (ds ++ '.' :: (fs ++ 'e' :: tail))

/-- A key. -/
def IsKey (key : List Char) : Prop :=
  ∃ c cs, key = c :: cs ∧ isKeyStart c = true ∧ cs.all isKeyChar = true

/-! ### Strings -/

/-- A string is read back. -/
theorem parseChars_flatMap (rest : List Char) : ∀ s : List Char, s.all isVisible = true →
    parseChars (s.flatMap escape ++ '"' :: rest) = some (s, rest) := by
  intro s
  induction s with
  | nil =>
    intro _
    rw [List.flatMap_nil, List.nil_append, parseChars, if_neg (by decide), if_pos rfl]
    · simp
    · simp
  | cons c s ih =>
    intro hs
    rw [List.all_cons, Bool.and_eq_true] at hs
    rw [List.flatMap_cons, List.append_assoc, escape]
    split_ifs with hspecial
    · rcases hspecial with rfl | rfl
      · show parseChars ('\\' :: '"' :: (s.flatMap escape ++ '"' :: rest)) = _
        rw [parseChars, ih hs.2]
        rfl
      · show parseChars ('\\' :: '\\' :: (s.flatMap escape ++ '"' :: rest)) = _
        rw [parseChars, ih hs.2]
        rfl
    · rw [not_or] at hspecial
      show parseChars (c :: (s.flatMap escape ++ '"' :: rest)) = _
      rw [parseChars, if_neg hspecial.2, if_neg hspecial.1, if_pos hs.1, ih hs.2]
      · rfl
      · exact fun _ h => absurd h hspecial.2
      · exact fun _ h => absurd h hspecial.2

/-! ### Numbers -/

/-- What can follow a number: another parameter, or nothing. -/
def Ends (rest : List Char) : Prop := ∀ c ∈ rest.head?, c = ';'

theorem takeWhile_digits {ds rest : List Char} (hds : ds.all Char.isDigit = true)
    (hrest : ∀ c ∈ rest.head?, c.isDigit = false) :
    (ds ++ rest).takeWhile Char.isDigit = ds ∧ (ds ++ rest).dropWhile Char.isDigit = rest := by
  have hnil : rest.takeWhile Char.isDigit = [] ∧ rest.dropWhile Char.isDigit = rest := by
    cases rest with
    | nil => exact ⟨rfl, rfl⟩
    | cons c rest =>
      have hc := hrest c (by simp)
      simp [hc]
  rw [List.all_eq_true] at hds
  rw [List.takeWhile_append_of_pos hds, List.dropWhile_append_of_pos hds, hnil.1, hnil.2,
    List.append_nil]
  exact ⟨rfl, rfl⟩

theorem Ends.isDigit {rest : List Char} (h : Ends rest) : ∀ c ∈ rest.head?, c.isDigit = false := by
  intro c hc
  rw [h c hc]
  decide

/-- A number in front of anything that is no digit and no point. -/
theorem parseMagnitude_digits {ds rest : List Char} (hds : ds.all Char.isDigit = true)
    (hne : ds ≠ []) (hrest : ∀ c ∈ rest.head?, c.isDigit = false ∧ c ≠ '.') :
    parseMagnitude (ds ++ rest)
      = if ds.length ≤ 15 then some ((digitsVal ds, none), rest) else none := by
  obtain ⟨htake, hdrop⟩ := takeWhile_digits hds fun c hc => (hrest c hc).1
  rw [parseMagnitude, htake, hdrop, if_neg hne]
  cases rest with
  | nil => rfl
  | cons c rest =>
    have hc := (hrest c (by simp)).2
    dsimp only
    split
    · rename_i heq
      exact absurd (List.cons.inj heq).1 hc
    · rfl

theorem parseBare_digits {ds rest : List Char} (hds : ds.all Char.isDigit = true) (hne : ds ≠ []) :
    parseBare (ds ++ rest)
      = (parseMagnitude (ds ++ rest)).map fun r => (ofMagnitude 1 r.1, r.2) := by
  cases ds with
  | nil => exact absurd rfl hne
  | cons d ds =>
    rw [List.all_cons, Bool.and_eq_true] at hds
    have hd := hds.1
    have hne' : ∀ c : Char, c.isDigit = false → d ≠ c := by
      rintro c hc rfl
      rw [hd] at hc
      cases hc
    have h1 := hne' '"' (by decide)
    have h2 := hne' ':' (by decide)
    have h3 := hne' '?' (by decide)
    have h4 := hne' '@' (by decide)
    have h5 := hne' '%' (by decide)
    have h6 := hne' '-' (by decide)
    rw [List.cons_append]
    have hnumber : parseNumber (d :: (ds ++ rest))
        = (parseMagnitude (d :: (ds ++ rest))).map fun r => (ofMagnitude 1 r.1, r.2) := by
      unfold parseNumber
      split
      · rename_i heq
        exact absurd (List.cons.inj heq).1 h6
      · rfl
    rw [← hnumber]
    unfold parseBare
    split <;> simp_all

theorem toDigits_isDigit (n : ℕ) : (Nat.toDigits 10 n).all Char.isDigit = true :=
  List.all_eq_true.mpr fun _ hc => Nat.isDigit_of_mem_toDigits (by decide) (by decide) hc

/-- An integer that the grammar has is read back. -/
theorem parseNumber_toDigits {n : ℕ} (hn : n < 10 ^ 15) {rest : List Char} (hrest : Ends rest) :
    parseBare (Nat.toDigits 10 n ++ rest) = some (.integer n, rest) := by
  rw [parseBare_digits (toDigits_isDigit n) Nat.toDigits_ne_nil,
    parseMagnitude_digits (toDigits_isDigit n) Nat.toDigits_ne_nil, if_pos]
  · simp [ofMagnitude, digitsVal, Nat.ofDigitChars_toDigits]
  · exact (Nat.length_toDigits_le_iff (by decide) (by decide)).mpr hn
  · intro c hc
    rw [hrest c hc]
    decide

/-- A long one is not read, or not to its end. -/
theorem Long.parseBare {text rest : List Char} (h : Long text) (hrest : Ends rest) :
    parseBare (text ++ rest) = none ∨
      ∃ b tail, StructuredFields.parseBare (text ++ rest) = some (b, 'e' :: tail) := by
  cases h with
  | digits hds hlength =>
    have hne : text ≠ [] := by
      rintro rfl
      simp at hlength
    left
    rw [parseBare_digits hds hne, parseMagnitude_digits hds hne, if_neg (by omega)]
    · rfl
    · intro c hc
      rw [hrest c hc]
      decide
  | exponent hds hne tail =>
    rw [List.append_assoc, parseBare_digits hds hne, parseMagnitude_digits hds hne]
    · split_ifs
      · exact .inr ⟨_, _, rfl⟩
      · exact .inl rfl
    · intro c hc
      obtain rfl : 'e' = c := by simpa using hc
      decide
  | @fraction ds fs hds hne hfs tail =>
    have happ : (ds ++ '.' :: (fs ++ 'e' :: tail)) ++ rest
        = ds ++ ('.' :: (fs ++ ('e' :: (tail ++ rest)))) := by simp
    rw [happ, parseBare_digits hds hne]
    obtain ⟨htake, hdrop⟩ := @takeWhile_digits ds ('.' :: (fs ++ ('e' :: (tail ++ rest)))) hds
      (by simp)
    obtain ⟨htake', hdrop'⟩ := @takeWhile_digits fs ('e' :: (tail ++ rest)) hfs (by simp)
    rw [parseMagnitude, htake, hdrop, if_neg hne]
    simp only [htake', hdrop']
    split_ifs
    · exact .inr ⟨_, _, rfl⟩
    · exact .inl rfl

/-! ### Parameters -/

theorem parseKey_append {key : List Char} (hkey : IsKey key) (rest : List Char) :
    parseKey (key ++ '=' :: rest) = some (key, '=' :: rest) := by
  obtain ⟨c, cs, rfl, hc, hcs⟩ := hkey
  rw [List.all_eq_true] at hcs
  rw [List.cons_append, parseKey, if_pos hc, List.takeWhile_append_of_pos hcs,
    List.dropWhile_append_of_pos hcs]
  have hstop : isKeyChar '=' = false := by decide
  simp [hstop]

theorem IsKey.dropWhile {key : List Char} (hkey : IsKey key) (rest : List Char) :
    (key ++ rest).dropWhile (· = ' ') = key ++ rest := by
  obtain ⟨c, cs, rfl, hc, -⟩ := hkey
  have hne : c ≠ ' ' := by
    rintro rfl
    exact absurd hc (by decide)
  simp [hne]

/-- One parameter. -/
theorem parseParameters_cons {key text rest : List Char} (hkey : IsKey key) (rounds : ℕ)
    (params : Parameters) :
    parseParameters (rounds + 1) params (';' :: (key ++ '=' :: text) ++ rest)
      = (parseBare (text ++ rest)).bind fun r =>
        parseParameters rounds (setParameter params key r.1) r.2 := by
  rw [List.cons_append, parseParameters, List.append_assoc, hkey.dropWhile, List.cons_append,
    parseKey_append hkey]
  rfl

theorem ends_printParameters (params : List (List Char × List Char)) :
    Ends (printParameters params) := by
  cases params with
  | nil => simp [Ends, printParameters]
  | cons p params => simp [Ends, printParameters]

theorem printParameters_cons (p : List Char × List Char) (params : List (List Char × List Char)) :
    printParameters (p :: params) = ';' :: (p.1 ++ '=' :: p.2) ++ printParameters params := by
  rw [printParameters, List.flatMap_cons]
  rfl

theorem parseParameters_nil (rounds : ℕ) (params : Parameters) :
    parseParameters rounds params [] = some (params, []) := by
  cases rounds <;> rfl

theorem setParameter_of_notMem {params : Parameters} {key : List Char} (value : Bare)
    (h : key ∉ params.map Prod.fst) : setParameter params key value = params ++ [(key, value)] := by
  rw [setParameter, if_neg]
  intro hany
  obtain ⟨p, hp, hkey⟩ := List.any_eq_true.mp hany
  exact h (List.mem_map.mpr ⟨p, hp, of_decide_eq_true hkey⟩)

/-- Parameters with integers that the grammar has are read back. -/
theorem parseParameters_print : ∀ (ps : List (List Char × ℕ)) (rounds : ℕ) (params : Parameters),
    ps.length ≤ rounds → (∀ p ∈ ps, IsKey p.1) → (∀ p ∈ ps, p.2 < 10 ^ 15) →
    (params.map Prod.fst ++ ps.map Prod.fst).Nodup →
      parseParameters rounds params
          (printParameters (ps.map fun p => (p.1, Nat.toDigits 10 p.2)))
        = some (params ++ ps.map fun p => (p.1, .integer p.2), []) := by
  intro ps
  induction ps with
  | nil =>
    intro rounds params _ _ _ _
    rw [List.map_nil, List.map_nil, List.append_nil]
    exact parseParameters_nil rounds params
  | cons p ps ih =>
    intro rounds params hrounds hkeys hshort hnodup
    obtain ⟨rounds, rfl⟩ := Nat.exists_eq_add_of_le' (Nat.pos_of_ne_zero (n := rounds) (by
      rintro rfl
      simp at hrounds))
    have hnew : p.1 ∉ params.map Prod.fst := by
      intro hmem
      exact (List.nodup_append.mp hnodup).2.2 p.1 hmem p.1 (by simp) rfl
    rw [List.map_cons, printParameters_cons, parseParameters_cons (hkeys p List.mem_cons_self),
      parseNumber_toDigits (hshort p List.mem_cons_self) (ends_printParameters _), Option.bind_some,
      setParameter_of_notMem _ hnew, ih rounds _ (by simpa using hrounds)
        (fun q hq => hkeys q (List.mem_cons_of_mem _ hq))
        (fun q hq => hshort q (List.mem_cons_of_mem _ hq))]
    · simp
    · simpa using hnodup

/-- With a number that is too long among them, parameters are not read, or not to their end. -/
theorem parseParameters_long (ps : List (List Char × List Char)) : ∀ (rounds : ℕ)
    (params : Parameters), ps.length ≤ rounds → (∀ p ∈ ps, IsKey p.1) →
    (∀ p ∈ ps, (∃ n < 10 ^ 15, p.2 = Nat.toDigits 10 n) ∨ Long p.2) → (∃ p ∈ ps, Long p.2) →
      parseParameters rounds params (printParameters ps) = none ∨
      ∃ params' tail, parseParameters rounds params (printParameters ps)
        = some (params', 'e' :: tail) := by
  induction ps with
  | nil =>
    rintro _ _ _ _ _ ⟨p, hp, -⟩
    cases hp
  | cons p ps ih =>
    intro rounds params hrounds hkeys htexts hlong
    obtain ⟨rounds, rfl⟩ := Nat.exists_eq_add_of_le' (Nat.pos_of_ne_zero (n := rounds) (by
      rintro rfl
      simp at hrounds))
    rw [printParameters_cons, parseParameters_cons (hkeys p List.mem_cons_self)]
    rcases htexts p List.mem_cons_self with ⟨n, hn, htext⟩ | hp
    · have hrest : ∃ q ∈ ps, Long q.2 := by
        obtain ⟨q, hq, hql⟩ := hlong
        rcases List.mem_cons.mp hq with rfl | hq
        · -- A number is not both.
          exfalso
          have hself := @Long.parseBare _ [] hql (by simp [Ends])
          rw [htext, parseNumber_toDigits hn (by simp [Ends])] at hself
          simp at hself
        · exact ⟨q, hq, hql⟩
      rw [htext, parseNumber_toDigits hn (ends_printParameters ps), Option.bind_some]
      exact ih rounds _ (by simpa using hrounds) (fun q hq => hkeys q (List.mem_cons_of_mem _ hq))
        (fun q hq => htexts q (List.mem_cons_of_mem _ hq)) hrest
    · rcases hp.parseBare (ends_printParameters ps) with hnone | ⟨b, tail, hsome⟩
      · exact .inl (by rw [hnone]; rfl)
      · refine .inr ⟨setParameter params p.1 b, tail, ?_⟩
        rw [hsome, Option.bind_some]
        cases rounds <;> rfl

/-! ### Printed items -/

/-- The text of an ASCII character. -/
def isAscii (c : Char) : Bool := c.toNat < 0x80

theorem isAscii_of_isVisible {c : Char} (h : isVisible c = true) : isAscii c = true := by
  rw [isVisible, Bool.and_eq_true, decide_eq_true_eq, decide_eq_true_eq] at h
  rw [isAscii, decide_eq_true_eq]
  omega

theorem isVisible_of_isDigit {c : Char} (h : c.isDigit = true) : isVisible c = true := by
  rw [Char.isDigit, Bool.and_eq_true, decide_eq_true_eq, decide_eq_true_eq] at h
  have hge : 48 ≤ c.toNat := UInt32.le_iff_toNat_le.mp h.1
  have hle : c.toNat ≤ 57 := UInt32.le_iff_toNat_le.mp h.2
  rw [isVisible, Bool.and_eq_true, decide_eq_true_eq, decide_eq_true_eq]
  omega

theorem isVisible_of_isLower {c : Char} (h : c.isLower = true) : isVisible c = true := by
  obtain ⟨hfrom, hto⟩ := Bool.and_eq_true_iff.mp h
  have hge : 97 ≤ c.toNat := UInt32.le_iff_toNat_le.mp (of_decide_eq_true hfrom)
  have hle : c.toNat ≤ 122 := UInt32.le_iff_toNat_le.mp (of_decide_eq_true hto)
  rw [isVisible, Bool.and_eq_true, decide_eq_true_eq, decide_eq_true_eq]
  omega

theorem isVisible_of_isKeyChar {c : Char} (h : isKeyChar c = true) : isVisible c = true := by
  simp only [isKeyChar, Bool.or_eq_true, decide_eq_true_eq] at h
  rcases h with ((((h | h) | rfl) | rfl) | rfl) | rfl
  · exact isVisible_of_isLower h
  · exact isVisible_of_isDigit h
  all_goals decide

theorem IsKey.isVisible {key : List Char} (h : IsKey key) : key.all isVisible = true := by
  obtain ⟨c, cs, rfl, hc, hcs⟩ := h
  rw [List.all_cons, Bool.and_eq_true]
  constructor
  · simp only [isKeyStart, Bool.or_eq_true, decide_eq_true_eq] at hc
    rcases hc with hc | rfl
    · exact isVisible_of_isLower hc
    · decide
  · rw [List.all_eq_true] at hcs ⊢
    exact fun d hd => isVisible_of_isKeyChar (hcs d hd)

theorem isVisible_printString {s : List Char} (hs : s.all isVisible = true) :
    (printString s).all isVisible = true := by
  rw [List.all_eq_true] at hs ⊢
  intro c hc
  rcases List.mem_cons.mp hc with rfl | hc
  · decide
  rcases List.mem_append.mp hc with hc | hc
  · obtain ⟨d, hd, hc⟩ := List.mem_flatMap.mp hc
    rw [escape] at hc
    split_ifs at hc
    · rcases List.mem_cons.mp hc with rfl | hc
      · decide
      · rw [List.mem_singleton.mp hc]
        exact hs d hd
    · rw [List.mem_singleton.mp hc]
      exact hs d hd
  · rw [List.mem_singleton.mp hc]
    decide

theorem isVisible_printParameters {ps : List (List Char × List Char)} (hkeys : ∀ p ∈ ps, IsKey p.1)
    (htexts : ∀ p ∈ ps, p.2.all Char.isDigit = true) :
    (printParameters ps).all isVisible = true := by
  rw [List.all_eq_true]
  intro c hc
  obtain ⟨p, hp, hc⟩ := List.mem_flatMap.mp hc
  rcases List.mem_cons.mp hc with rfl | hc
  · decide
  rcases List.mem_append.mp hc with hc | hc
  · exact List.all_eq_true.mp (hkeys p hp).isVisible c hc
  rcases List.mem_cons.mp hc with rfl | hc
  · decide
  · exact isVisible_of_isDigit (List.all_eq_true.mp (htexts p hp) c hc)

/-- A character of the string stays in its text. -/
theorem mem_printString {s : List Char} {c : Char} (hc : c ∈ s) : c ∈ printString s := by
  refine List.mem_cons_of_mem _ (List.mem_append_left _ (List.mem_flatMap.mpr ⟨c, hc, ?_⟩))
  rw [escape]
  split_ifs <;> simp

/-- What is printed with integers is visible. -/
theorem isVisible_print {s : List Char} (hs : s.all isVisible = true) {ps : List (List Char × ℕ)}
    (hkeys : ∀ p ∈ ps, IsKey p.1) :
    (printString s ++ printParameters (ps.map fun p => (p.1, Nat.toDigits 10 p.2))).all isVisible
      = true := by
  rw [List.all_append, isVisible_printString hs, isVisible_printParameters]
  · rfl
  · intro p hp
    obtain ⟨q, hq, rfl⟩ := List.mem_map.mp hp
    exact hkeys q hq
  · intro p hp
    obtain ⟨q, -, rfl⟩ := List.mem_map.mp hp
    exact toDigits_isDigit q.2

theorem length_le_printParameters (ps : List (List Char × List Char)) :
    ps.length ≤ (printParameters ps).length := by
  induction ps with
  | nil => simp
  | cons p ps ih =>
    rw [printParameters_cons, List.length_append, List.length_cons, List.length_cons]
    omega

/-- ASCII without control characters is visible. -/
theorem all_isVisible {s : List Char} (hs : ∀ c ∈ s, 0x20 ≤ c.toNat ∧ c.toNat ≠ 0x7f)
    (hs' : ∀ c ∈ s, isAscii c = true) : s.all isVisible = true := by
  rw [List.all_eq_true]
  intro c hc
  have hlt := of_decide_eq_true (hs' c hc)
  obtain ⟨hlo, hne⟩ := hs c hc
  rw [isVisible, Bool.and_eq_true, decide_eq_true_eq, decide_eq_true_eq]
  omega

/-- A list of one printed item, as far as its parameters go. -/
theorem parseMembers_print {s : List Char} (hs : s.all isVisible = true)
    (ps : List (List Char × List Char)) (rounds : ℕ) :
    parseMembers (rounds + 1) (printString s ++ printParameters ps)
      = (parseParameters (printString s ++ printParameters ps).length [] (printParameters ps)).bind
        fun r => match skipWs r.2 with
          | [] => some [.item ⟨.string s, r.1⟩]
          | ',' :: rest => (parseMembers rounds (skipWs rest)).map (.item ⟨.string s, r.1⟩ :: ·)
          | _ => none := by
  have hbare : parseBare (printString s ++ printParameters ps)
      = some (.string s, printParameters ps) := by
    rw [printString, List.cons_append, List.append_assoc]
    show (parseChars _).map _ = _
    rw [List.singleton_append, parseChars_flatMap _ s hs]
    rfl
  have hmember : parseMember (printString s ++ printParameters ps)
      = (parseItem (printString s ++ printParameters ps)).map fun r => (.item r.1, r.2) := rfl
  rw [parseMembers, hmember, parseItem, hbare, Option.bind_some]
  cases parseParameters (printString s ++ printParameters ps).length [] (printParameters ps) with
  | none => rfl
  | some r => rfl

theorem parseList_print {s : List Char} {ps : List (List Char × List Char)}
    (hascii : (printString s ++ printParameters ps).all isAscii = true) :
    parseList (printString s ++ printParameters ps)
      = parseMembers ((printString s ++ printParameters ps).length + 1)
        (printString s ++ printParameters ps) := by
  have hascii' : ((printString s ++ printParameters ps).all (·.toNat < 0x80)) = true := hascii
  rw [parseList, if_pos hascii']
  rfl

/-- What is not ASCII is not a list. -/
theorem parseList_of_not_ascii {cs : List Char} (h : cs.all isAscii = false) :
    parseList cs = none := by
  have h' : (cs.all (·.toNat < 0x80)) = false := h
  rw [parseList, h']
  rfl

section Numbers

variable {text : ℕ → List Char} (hshort : ∀ n < 10 ^ 15, text n = Nat.toDigits 10 n)
  (hlong : ∀ n, 10 ^ 15 ≤ n → Long (text n))

include hshort hlong

/-- **Which printed items are read back**: those of ASCII strings, with integers of at most 15
digits. The string has no control characters. -/
theorem parseList_eq_some_iff {s : List Char} (hs : ∀ c ∈ s, 0x20 ≤ c.toNat ∧ c.toNat ≠ 0x7f)
    {ps : List (List Char × ℕ)} (hkeys : ∀ p ∈ ps, IsKey p.1) (hnodup : (ps.map Prod.fst).Nodup) :
    parseList (printString s ++ printParameters (ps.map fun p => (p.1, text p.2)))
        = some [.item ⟨.string s, ps.map fun p => (p.1, .integer p.2)⟩] ↔
      (∀ c ∈ s, isAscii c = true) ∧ ∀ p ∈ ps, p.2 < 10 ^ 15 := by
  have hkeys' : ∀ p ∈ ps.map fun p => (p.1, text p.2), IsKey p.1 := by
    intro p hp
    obtain ⟨q, hq, rfl⟩ := List.mem_map.mp hp
    exact hkeys q hq
  have hrounds : (ps.map fun p => (p.1, text p.2)).length
      ≤ (printString s ++ printParameters (ps.map fun p => (p.1, text p.2))).length := by
    have := length_le_printParameters (ps.map fun p => (p.1, text p.2))
    rw [List.length_append]
    omega
  constructor
  · intro hparse
    have hascii : (printString s ++ printParameters (ps.map fun p => (p.1, text p.2))).all isAscii
        = true := by
      by_contra hnot
      rw [parseList_of_not_ascii ((Bool.not_eq_true _).mp hnot)] at hparse
      cases hparse
    have hs' : ∀ c ∈ s, isAscii c = true := by
      intro c hc
      exact List.all_eq_true.mp hascii c (List.mem_append_left _ (mem_printString hc))
    have hvisible := all_isVisible hs hs'
    refine ⟨hs', ?_⟩
    by_contra hexists
    push Not at hexists
    obtain ⟨p, hp, hlarge⟩ := hexists
    rw [parseList_print hascii, parseMembers_print hvisible] at hparse
    rcases parseParameters_long _ _ [] hrounds hkeys' (fun q hq => by
        obtain ⟨q, -, rfl⟩ := List.mem_map.mp hq
        rcases lt_or_ge q.2 (10 ^ 15) with hlt | hge
        · exact .inl ⟨q.2, hlt, hshort q.2 hlt⟩
        · exact .inr (hlong q.2 hge))
      ⟨_, List.mem_map.mpr ⟨p, hp, rfl⟩, hlong p.2 hlarge⟩ with hnone | ⟨params, tail, hsome⟩
    · rw [hnone] at hparse
      cases hparse
    · rw [hsome] at hparse
      cases hparse
  · rintro ⟨hs', hsmall⟩
    have hvisible := all_isVisible hs hs'
    have htexts : (ps.map fun p => (p.1, text p.2))
        = ps.map fun p => (p.1, Nat.toDigits 10 p.2) :=
      List.map_congr_left fun p hp => by rw [hshort p.2 (hsmall p hp)]
    rw [htexts] at hrounds hkeys' ⊢
    have hascii : (printString s ++ printParameters
        (ps.map fun p => (p.1, Nat.toDigits 10 p.2))).all isAscii = true := by
      rw [List.all_eq_true]
      intro c hc
      exact isAscii_of_isVisible
        (List.all_eq_true.mp (isVisible_print hvisible hkeys) c hc)
    rw [parseList_print hascii, parseMembers_print hvisible,
      parseParameters_print ps _ [] (by simpa using hrounds) hkeys hsmall (by simpa using hnodup)]
    rfl

end Numbers

end StructuredFields
