import Mathlib.Data.List.TakeWhile
import ThrottleKit.Lib.JsonValue

/-!
# JSON texts

The text of a JSON value, without white space, and the values that texts stand for. How a number is
written, and which number a numeral stands for, are parameters; what is asked of them is that the
numeral of a number stands for it.

A text is read to its end by a parser that goes down into the value. The recursion is on a bound for
the length of what is left, which every call lowers and every character of the text pays for.

A text that repeats a property sets it again. An escaped surrogate without its other half stands for
no character, and is refused.

## Main definitions

* `Numerals` — how numbers are written and read
* `print`, `stringify` — the text of a value
* `parseValue`, `parse` — the value of a text

## Main results

* `parseValue_print` — the text of a value is read back, whatever comes behind it
* `parse_stringify` — reading undoes writing
-/

namespace JsonText

open JsonValue

/-! ### Numerals -/

/-- A numeral behind its digits before the point and its fraction. -/
def isExponent : List Char → Bool
  | [] => true
  | e :: cs =>
    (e = 'e' || e = 'E') &&
      match cs with
      | '+' :: d :: ds | '-' :: d :: ds => d.isDigit && ds.all Char.isDigit
      | d :: ds => d.isDigit && ds.all Char.isDigit
      | [] => false

/-- A numeral behind its digits before the point. -/
def isFraction : List Char → Bool
  | '.' :: d :: cs => d.isDigit && isExponent (cs.dropWhile Char.isDigit)
  | cs => isExponent cs

/-- A numeral behind its sign. -/
def isMagnitude : List Char → Bool
  | '0' :: cs => isFraction cs
  | d :: cs => d.isDigit && isFraction (cs.dropWhile Char.isDigit)
  | [] => false

/-- The numbers of the grammar. -/
def isNumeral : List Char → Bool
  | '-' :: cs => isMagnitude cs
  | cs => isMagnitude cs

/-- The characters that occur in them. -/
def isNumeralChar (c : Char) : Bool :=
  c.isDigit || c = '-' || c = '+' || c = '.' || c = 'e' || c = 'E'

/-- How numbers are written and read. -/
structure Numerals where
  /-- `Number.prototype.toString`. -/
  print : ℚ → List Char
  /-- The number that a numeral stands for. -/
  read : List Char → ℚ

/-- `x` has a numeral, and it stands for `x`. -/
def Numerals.Faithful (nums : Numerals) (x : ℚ) : Prop :=
  isNumeral (nums.print x) = true ∧ nums.read (nums.print x) = x

instance (nums : Numerals) (x : ℚ) : Decidable (nums.Faithful x) :=
  inferInstanceAs (Decidable (_ ∧ _))

/-! ### Writing -/

/-- A hexadecimal digit. -/
def hexDigit (n : ℕ) : Char := if n < 10 then .ofNat (48 + n) else .ofNat (87 + n)

/-- A character of a string as it is written. -/
def escape (c : Char) : List Char :=
  if c = '"' then ['\\', '"']
  else if c = '\\' then ['\\', '\\']
  else if c = '\x08' then ['\\', 'b']
  else if c = '\t' then ['\\', 't']
  else if c = '\n' then ['\\', 'n']
  else if c = '\x0c' then ['\\', 'f']
  else if c = '\r' then ['\\', 'r']
  else if c.toNat < 32 then
    ['\\', 'u', '0', '0', hexDigit (c.toNat / 16), hexDigit (c.toNat % 16)]
  else [c]

/-- A string as it is written. -/
def quote (s : String) : List Char := '"' :: (s.toList.flatMap escape ++ ['"'])

section Print

variable (nums : Numerals)

mutual

/-- The text of a value. -/
def print : JsonValue → List Char
  | .null => ['n', 'u', 'l', 'l']
  | .bool true => ['t', 'r', 'u', 'e']
  | .bool false => ['f', 'a', 'l', 's', 'e']
  | .num x => nums.print x
  | .str s => quote s
  | .arr [] => ['[', ']']
  | .arr (j :: js) => '[' :: (print j ++ printElements js)
  | .obj [] => ['{', '}']
  | .obj ((name, j) :: properties) =>
    '{' :: (quote name ++ ':' :: (print j ++ printProperties properties))

/-- The elements after the first one, to the end of the array. -/
def printElements : List JsonValue → List Char
  | [] => [']']
  | j :: js => ',' :: (print j ++ printElements js)

/-- The properties after the first one, to the end of the object. -/
def printProperties : List (String × JsonValue) → List Char
  | [] => ['}']
  | (name, j) :: properties =>
    ',' :: (quote name ++ ':' :: (print j ++ printProperties properties))

end

end Print

/-- `JSON.stringify(value)`. -/
def stringify (nums : Numerals) (j : JsonValue) : String := String.ofList (print nums j)

/-! ### Reading -/

/-- White space of a JSON text. -/
def isWs (c : Char) : Bool := c = ' ' || c = '\t' || c = '\n' || c = '\r'

/-- Skip white space. -/
def skipWs (cs : List Char) : List Char := cs.dropWhile isWs

/-- The number of a hexadecimal digit. -/
def hexVal (c : Char) : Option ℕ :=
  if c.isDigit then some (c.toNat - 48)
  else if 'a' ≤ c ∧ c ≤ 'f' then some (c.toNat - 87)
  else if 'A' ≤ c ∧ c ≤ 'F' then some (c.toNat - 55)
  else none

/-- The number of four of them. -/
def hexVal₄ (a b c d : Char) : Option ℕ := do
  let a ← hexVal a
  let b ← hexVal b
  let c ← hexVal c
  let d ← hexVal d
  return ((a * 16 + b) * 16 + c) * 16 + d

/-- The character behind a backslash. -/
def unescape (c : Char) : Option Char :=
  match c with
  | '"' => some '"'
  | '\\' => some '\\'
  | '/' => some '/'
  | 'b' => some '\x08'
  | 'f' => some '\x0c'
  | 'n' => some '\n'
  | 'r' => some '\r'
  | 't' => some '\t'
  | _ => none

/-- One more character. -/
def consTo (c : Char) (r : Option (List Char × List Char)) : Option (List Char × List Char) :=
  r.map fun p => (c :: p.1, p.2)

/-- A string behind its opening quote, with what is left behind the closing one. -/
def parseString : List Char → Option (List Char × List Char)
  | [] => none
  | '"' :: rest => some ([], rest)
  | '\\' :: 'u' :: a :: b :: c :: d :: rest =>
    match hexVal₄ a b c d with
    | none => none
    | some n =>
      if 0xD800 ≤ n ∧ n < 0xDC00 then
        match rest with
        | '\\' :: 'u' :: a' :: b' :: c' :: d' :: rest =>
          match hexVal₄ a' b' c' d' with
          | none => none
          | some n' =>
            if 0xDC00 ≤ n' ∧ n' < 0xE000 then
              consTo (.ofNat (0x10000 + (n - 0xD800) * 0x400 + (n' - 0xDC00))) (parseString rest)
            else none
        | _ => none
      else if 0xDC00 ≤ n ∧ n < 0xE000 then none
      else consTo (.ofNat n) (parseString rest)
  | '\\' :: c :: rest =>
    match unescape c with
    | some c => consTo c (parseString rest)
    | none => none
  | c :: rest => if c.toNat < 32 then none else consTo c (parseString rest)

/-- A literal whose first character has been read. -/
def parseLiteral (word : List Char) (j : JsonValue) (cs : List Char) :
    Option (JsonValue × List Char) :=
  if word <+: cs then some (j, cs.drop word.length) else none

/-- A number. -/
def parseNumber (nums : Numerals) (cs : List Char) : Option (JsonValue × List Char) :=
  let numeral := cs.takeWhile isNumeralChar
  if isNumeral numeral then some (.num (nums.read numeral), cs.dropWhile isNumeralChar) else none

/-- Set a property. -/
def setProperty (properties : List (String × JsonValue)) (p : String × JsonValue) :
    List (String × JsonValue) :=
  if properties.any fun q => q.1 = p.1 then
    properties.map fun q => if q.1 = p.1 then p else q
  else properties ++ [p]

/-- An object whose properties are set one after the other. -/
def ofProperties (properties : List (String × JsonValue)) : JsonValue :=
  .obj (properties.foldl setProperty [])

section Parse

variable (nums : Numerals)

mutual

/-- A value, with what is left behind it. -/
def parseValue : ℕ → List Char → Option (JsonValue × List Char)
  | 0, _ => none
  | n + 1, cs =>
    match skipWs cs with
    | [] => none
    | '"' :: rest => (parseString rest).map fun p => (.str (.ofList p.1), p.2)
    | 'n' :: rest => parseLiteral ['u', 'l', 'l'] .null rest
    | 't' :: rest => parseLiteral ['r', 'u', 'e'] (.bool true) rest
    | 'f' :: rest => parseLiteral ['a', 'l', 's', 'e'] (.bool false) rest
    | '[' :: rest =>
      match skipWs rest with
      | ']' :: rest => some (.arr [], rest)
      | cs => do
        let (j, cs) ← parseValue n cs
        let (js, cs) ← parseElements n cs
        return (.arr (j :: js), cs)
    | '{' :: rest =>
      match skipWs rest with
      | '}' :: rest => some (.obj [], rest)
      | cs => do
        let (p, cs) ← parseProperty n cs
        let (properties, cs) ← parseProperties n cs
        return (ofProperties (p :: properties), cs)
    | c :: rest => parseNumber nums (c :: rest)

/-- The elements after the first one, to the end of the array. -/
def parseElements : ℕ → List Char → Option (List JsonValue × List Char)
  | 0, _ => none
  | n + 1, cs =>
    match skipWs cs with
    | ']' :: rest => some ([], rest)
    | ',' :: rest => do
      let (j, cs) ← parseValue n rest
      let (js, cs) ← parseElements n cs
      return (j :: js, cs)
    | _ => none

/-- A property. -/
def parseProperty : ℕ → List Char → Option ((String × JsonValue) × List Char)
  | 0, _ => none
  | n + 1, cs =>
    match skipWs cs with
    | '"' :: rest => do
      let (name, cs) ← parseString rest
      match skipWs cs with
      | ':' :: rest => do
        let (j, cs) ← parseValue n rest
        return ((.ofList name, j), cs)
      | _ => none
    | _ => none

/-- The properties after the first one, to the end of the object. -/
def parseProperties : ℕ → List Char → Option (List (String × JsonValue) × List Char)
  | 0, _ => none
  | n + 1, cs =>
    match skipWs cs with
    | '}' :: rest => some ([], rest)
    | ',' :: rest => do
      let (p, cs) ← parseProperty n rest
      let (properties, cs) ← parseProperties n cs
      return (p :: properties, cs)
    | _ => none

end

end Parse

/-- `JSON.parse(text)`; without a result where it throws. -/
def parse (nums : Numerals) (text : String) : Option JsonValue := do
  let cs := text.toList
  let (j, rest) ← parseValue nums (cs.length + 1) cs
  if skipWs rest = [] then some j else none

/-! ### Characters -/

variable {nums : Numerals} {cs rest : List Char}

theorem skipWs_cons {c : Char} (h : isWs c = false) : skipWs (c :: cs) = c :: cs := by
  rw [skipWs, List.dropWhile_cons, h]
  rfl

theorem hexVal_hexDigit : ∀ n < 16, hexVal (hexDigit n) = some n := by decide

/-- The number of an escaped control character. -/
theorem hexVal₄_of_lt {n : ℕ} (h : n < 32) :
    hexVal₄ '0' '0' (hexDigit (n / 16)) (hexDigit (n % 16)) = some n := by
  have hhigh := hexVal_hexDigit (n / 16) (by omega)
  have hlow := hexVal_hexDigit (n % 16) (by omega)
  have hzero : hexVal '0' = some 0 := by decide
  rw [hexVal₄, hzero, hhigh, hlow]
  show some (((0 * 16 + 0) * 16 + n / 16) * 16 + n % 16) = some n
  congr 1
  omega

/-- What is written for a character is read as the character. -/
theorem parseString_escape (c : Char) (rest : List Char) :
    parseString (escape c ++ rest) = consTo c (parseString rest) := by
  rw [escape]
  split
  · subst_vars; rfl
  split
  · subst_vars; rfl
  split
  · subst_vars; rfl
  split
  · subst_vars; rfl
  split
  · subst_vars; rfl
  split
  · subst_vars; rfl
  split
  · subst_vars; rfl
  rename_i hquote hslash _ _ _ _ _
  split
  · rename_i hlt
    have hsurrogate : ¬ (0xD800 ≤ c.toNat ∧ c.toNat < 0xDC00) := by omega
    have hsurrogate' : ¬ (0xDC00 ≤ c.toNat ∧ c.toNat < 0xE000) := by omega
    simp only [List.cons_append, List.nil_append]
    rw [parseString, hexVal₄_of_lt hlt]
    simp only [hsurrogate, hsurrogate', if_false, Char.ofNat_toNat]
  · rename_i hlt
    rw [List.singleton_append]
    rw [parseString.eq_def]
    split <;> simp_all

theorem parseString_flatMap (s rest : List Char) :
    parseString (s.flatMap escape ++ '"' :: rest) = some (s, rest) := by
  induction s with
  | nil => rfl
  | cons c s ih =>
    rw [List.flatMap_cons, List.append_assoc, parseString_escape, ih]
    rfl

/-! ### Numerals -/

theorem isNumeralChar_of_isDigit {c : Char} (h : c.isDigit = true) : isNumeralChar c = true := by
  simp [isNumeralChar, h]

theorem all_isNumeralChar_of_isDigit (h : cs.all Char.isDigit = true) :
    cs.all isNumeralChar = true := by
  rw [List.all_eq_true] at h ⊢
  exact fun c hc => isNumeralChar_of_isDigit (h c hc)

/-- Digits in front make no difference. -/
theorem all_isNumeralChar_of_dropWhile (h : (cs.dropWhile Char.isDigit).all isNumeralChar = true) :
    cs.all isNumeralChar = true := by
  rw [← List.takeWhile_append_dropWhile (p := Char.isDigit) (l := cs), List.all_append, h,
    Bool.and_true, List.all_eq_true]
  exact fun c hc => isNumeralChar_of_isDigit (List.mem_takeWhile_imp hc)

theorem all_isNumeralChar_cons {c : Char} (hc : isNumeralChar c = true)
    (h : cs.all isNumeralChar = true) : (c :: cs).all isNumeralChar = true := by
  rw [List.all_cons, hc, h, Bool.and_self]

theorem all_isNumeralChar_of_isExponent (h : isExponent cs = true) :
    cs.all isNumeralChar = true := by
  cases cs with
  | nil => rfl
  | cons e cs =>
    rw [isExponent.eq_def] at h
    simp only [Bool.and_eq_true, Bool.or_eq_true, decide_eq_true_eq] at h
    obtain ⟨he, hcs⟩ := h
    refine all_isNumeralChar_cons (by rcases he with rfl | rfl <;> rfl) ?_
    have hdigits {d : Char} {ds : List Char} (h : (d.isDigit && ds.all Char.isDigit) = true) :
        (d :: ds).all isNumeralChar = true := by
      rw [Bool.and_eq_true] at h
      exact all_isNumeralChar_cons (isNumeralChar_of_isDigit h.1)
        (all_isNumeralChar_of_isDigit h.2)
    split at hcs
    · exact all_isNumeralChar_cons rfl (hdigits hcs)
    · exact all_isNumeralChar_cons rfl (hdigits hcs)
    · exact hdigits hcs
    · cases hcs

theorem all_isNumeralChar_of_isFraction (h : isFraction cs = true) :
    cs.all isNumeralChar = true := by
  rw [isFraction.eq_def] at h
  split at h
  · rw [Bool.and_eq_true] at h
    exact all_isNumeralChar_cons rfl (all_isNumeralChar_cons (isNumeralChar_of_isDigit h.1)
      (all_isNumeralChar_of_dropWhile (all_isNumeralChar_of_isExponent h.2)))
  · exact all_isNumeralChar_of_isExponent h

theorem all_isNumeralChar_of_isMagnitude (h : isMagnitude cs = true) :
    cs.all isNumeralChar = true := by
  rw [isMagnitude.eq_def] at h
  split at h
  · exact all_isNumeralChar_cons rfl (all_isNumeralChar_of_isFraction h)
  · rw [Bool.and_eq_true] at h
    exact all_isNumeralChar_cons (isNumeralChar_of_isDigit h.1)
      (all_isNumeralChar_of_dropWhile (all_isNumeralChar_of_isFraction h.2))
  · cases h

theorem all_isNumeralChar_of_isNumeral (h : isNumeral cs = true) :
    cs.all isNumeralChar = true := by
  rw [isNumeral.eq_def] at h
  split at h
  · exact all_isNumeralChar_cons rfl (all_isNumeralChar_of_isMagnitude h)
  · exact all_isNumeralChar_of_isMagnitude h

theorem ne_nil_of_isNumeral (h : isNumeral cs = true) : cs ≠ [] := by
  rintro rfl
  cases h

/-- What stands behind a value and does not go on with a number. -/
def Follows (rest : List Char) : Prop := ∀ c ∈ rest.head?, isNumeralChar c = false

theorem follows_nil : Follows [] := by
  intro c hc
  cases hc

theorem follows_cons {c : Char} (h : isNumeralChar c = false) : Follows (c :: rest) := by
  intro c' hc'
  obtain rfl : c = c' := Option.some.inj hc'
  exact h

/-- A numeral is read to its end. -/
theorem parseNumber_append (h : isNumeral cs = true) (hrest : Follows rest) :
    parseNumber nums (cs ++ rest) = some (.num (nums.read cs), rest) := by
  have hall : ∀ c ∈ cs, isNumeralChar c = true :=
    List.all_eq_true.mp (all_isNumeralChar_of_isNumeral h)
  have hnone : rest.takeWhile isNumeralChar = [] ∧ rest.dropWhile isNumeralChar = rest := by
    cases rest with
    | nil => exact ⟨rfl, rfl⟩
    | cons c rest =>
      have hc := hrest c rfl
      constructor
      · rw [List.takeWhile_cons, hc]
        rfl
      · rw [List.dropWhile_cons, hc]
        rfl
  have htake : (cs ++ rest).takeWhile isNumeralChar = cs := by
    rw [List.takeWhile_append_of_pos hall, hnone.1, List.append_nil]
  have hdrop : (cs ++ rest).dropWhile isNumeralChar = rest := by
    rw [List.dropWhile_append_of_pos hall, hnone.2]
  rw [parseNumber, htake, hdrop, if_pos h]

/-! ### Objects -/

theorem setProperty_of_notMem {properties : List (String × JsonValue)} {p : String × JsonValue}
    (h : p.1 ∉ properties.map Prod.fst) : setProperty properties p = properties ++ [p] := by
  have hany : (properties.any fun q => q.1 = p.1) = false := by
    rw [List.any_eq_false]
    intro q hq heq
    exact h (List.mem_map.mpr ⟨q, hq, of_decide_eq_true heq⟩)
  rw [setProperty, hany]
  rfl

theorem foldl_setProperty {acc properties : List (String × JsonValue)}
    (h : ((acc ++ properties).map Prod.fst).Nodup) :
    properties.foldl setProperty acc = acc ++ properties := by
  induction properties generalizing acc with
  | nil => rw [List.foldl_nil, List.append_nil]
  | cons p properties ih =>
    have hp : p.1 ∉ acc.map Prod.fst := by
      rw [List.map_append, List.map_cons] at h
      intro hmem
      exact (List.nodup_append.mp h).2.2 _ hmem _ List.mem_cons_self rfl
    rw [List.foldl_cons, setProperty_of_notMem hp, ih, List.append_assoc, List.singleton_append]
    rwa [List.append_assoc, List.singleton_append]

/-- Properties of different names are all there. -/
theorem ofProperties_eq {properties : List (String × JsonValue)}
    (h : (properties.map Prod.fst).Nodup) : ofProperties properties = .obj properties := by
  have hfoldl : properties.foldl setProperty [] = [] ++ properties := foldl_setProperty h
  rw [ofProperties, hfoldl, List.nil_append]

/-! ### Values -/

theorem isWs_of_isNumeralChar {c : Char} (h : isNumeralChar c = true) : isWs c = false := by
  rw [← Bool.not_eq_true]
  intro hws
  simp only [isWs, Bool.or_eq_true, decide_eq_true_eq] at hws
  rcases hws with ((rfl | rfl) | rfl) | rfl <;> exact absurd h (by decide)

/-- A text of a value begins with a character that neither is skipped nor ends an array. -/
theorem print_head : ∀ (j : JsonValue), (∀ x ∈ j.numbers, nums.Faithful x) →
    ∃ c cs, print nums j = c :: cs ∧ isWs c = false ∧ c ≠ ']'
  | .null, _ => ⟨_, _, by rw [print], rfl, by decide⟩
  | .bool true, _ => ⟨_, _, by rw [print], rfl, by decide⟩
  | .bool false, _ => ⟨_, _, by rw [print], rfl, by decide⟩
  | .num x, h => by
    have hnum : isNumeral (nums.print x) = true := (h x (by simp [numbers])).1
    have hall := all_isNumeralChar_of_isNumeral hnum
    cases hp : nums.print x with
    | nil => exact absurd hp (ne_nil_of_isNumeral hnum)
    | cons c cs =>
      rw [hp, List.all_cons, Bool.and_eq_true] at hall
      refine ⟨c, cs, by rw [print, hp], isWs_of_isNumeralChar hall.1, ?_⟩
      rintro rfl
      exact absurd hall.1 (by decide)
  | .str s, _ => ⟨_, _, by rw [print, quote], rfl, by decide⟩
  | .arr [], _ => ⟨_, _, by rw [print], rfl, by decide⟩
  | .arr (_ :: _), _ => ⟨_, _, by rw [print], rfl, by decide⟩
  | .obj [], _ => ⟨_, _, by rw [print], rfl, by decide⟩
  | .obj (_ :: _), _ => ⟨_, _, by rw [print], rfl, by decide⟩

theorem parseValue_numeral {n : ℕ} (h : isNumeral cs = true) (hrest : Follows rest) :
    parseValue nums (n + 1) (cs ++ rest) = some (.num (nums.read cs), rest) := by
  have hall := all_isNumeralChar_of_isNumeral h
  have hnumber : parseNumber nums (cs ++ rest) = some (.num (nums.read cs), rest) :=
    parseNumber_append h hrest
  cases cs with
  | nil => cases h
  | cons c cs =>
    rw [List.all_cons, Bool.and_eq_true] at hall
    rw [List.cons_append] at hnumber ⊢
    rw [parseValue.eq_def]
    simp only [skipWs_cons (isWs_of_isNumeralChar hall.1)]
    split
    · rename_i heq
      cases heq
    -- a numeral begins with none of the other values' characters
    all_goals
      rename_i heq
      obtain ⟨rfl, rfl⟩ := List.cons.inj heq
      first
        | exact absurd hall.1 (by decide)
        | exact hnumber

theorem follows_printElements (js : List JsonValue) :
    Follows (printElements nums js ++ rest) := by
  cases js with
  | nil => rw [printElements]; exact follows_cons rfl
  | cons j js => rw [printElements]; exact follows_cons rfl

theorem follows_printProperties (properties : List (String × JsonValue)) :
    Follows (printProperties nums properties ++ rest) := by
  rcases properties with - | ⟨⟨name, j⟩, properties⟩
  · rw [printProperties]; exact follows_cons rfl
  · rw [printProperties]; exact follows_cons rfl

theorem parseValue_quote {n : ℕ} (s : String) (rest : List Char) :
    parseValue nums (n + 1) (quote s ++ rest) = some (.str s, rest) := by
  have hs := parseString_flatMap s.toList rest
  rw [quote, List.cons_append, List.append_assoc, List.singleton_append, parseValue,
    skipWs_cons rfl]
  simp [hs]

/-- A property is read back where its value is. -/
theorem parseProperty_quote {n : ℕ} {name : String} {j : JsonValue}
    (h : parseValue nums n (print nums j ++ rest) = some (j, rest)) :
    parseProperty nums (n + 1) (quote name ++ ':' :: (print nums j ++ rest))
      = some ((name, j), rest) := by
  have hname := parseString_flatMap name.toList (':' :: (print nums j ++ rest))
  rw [quote, List.cons_append, List.append_assoc, List.singleton_append, parseProperty,
    skipWs_cons rfl]
  simp [hname, skipWs_cons, isWs, h]

mutual

/-- **The text of a value is read back**, whatever comes behind it that does not go on with a
number. -/
theorem parseValue_print : ∀ (j : JsonValue) {n : ℕ} {rest : List Char}, j.Distinct →
    (∀ x ∈ j.numbers, nums.Faithful x) → (print nums j).length < n → Follows rest →
    parseValue nums n (print nums j ++ rest) = some (j, rest)
  | .null, n + 1, rest, _, _, _, _ => by
    rw [print, parseValue]
    simp [skipWs_cons, isWs, parseLiteral]
  | .bool true, n + 1, rest, _, _, _, _ => by
    rw [print, parseValue]
    simp [skipWs_cons, isWs, parseLiteral]
  | .bool false, n + 1, rest, _, _, _, _ => by
    rw [print, parseValue]
    simp [skipWs_cons, isWs, parseLiteral]
  | .num x, n + 1, rest, _, hnums, _, hrest => by
    obtain ⟨hnumeral, hread⟩ : nums.Faithful x := hnums x (by simp [numbers])
    rw [print, parseValue_numeral hnumeral hrest, hread]
  | .str s, n + 1, rest, _, _, _, _ => by
    rw [print, parseValue_quote]
  | .arr [], n + 1, rest, _, _, _, _ => by
    rw [print, parseValue]
    simp [skipWs_cons, isWs]
  | .arr (j :: js), n + 1, rest, hdistinct, hnums, hlen, hrest => by
    rw [Distinct, AllDistinct] at hdistinct
    simp only [numbers, elementNumbers, List.mem_append] at hnums
    rw [print, List.length_cons, List.length_append] at hlen
    obtain ⟨c, cs, hhead, hws, hclose⟩ := print_head j fun x hx => hnums x (.inl hx)
    have hj : parseValue nums n (print nums j ++ (printElements nums js ++ rest))
        = some (j, printElements nums js ++ rest) :=
      parseValue_print j hdistinct.1 (fun x hx => hnums x (.inl hx)) (by omega)
        (follows_printElements js)
    have hjs : parseElements nums n (printElements nums js ++ rest) = some (js, rest) :=
      parseElements_print js hdistinct.2 (fun x hx => hnums x (.inr hx)) (by omega)
    rw [print, List.cons_append, List.append_assoc, parseValue, skipWs_cons rfl]
    rw [hhead, List.cons_append] at hj ⊢
    simp [skipWs_cons hws, hclose, hj, hjs]
  | .obj [], n + 1, rest, _, _, _, _ => by
    rw [print, parseValue]
    simp [skipWs_cons, isWs]
  | .obj ((name, j) :: properties), n + 1, rest, hdistinct, hnums, hlen, hrest => by
    rw [Distinct, PropertiesDistinct] at hdistinct
    simp only [numbers, propertyNumbers, List.mem_append] at hnums
    rw [print, List.length_cons, List.length_append, List.length_cons, List.length_append] at hlen
    obtain ⟨n, rfl⟩ : ∃ k, n = k + 1 := ⟨n - 1, by omega⟩
    have hj : parseValue nums n (print nums j ++ (printProperties nums properties ++ rest))
        = some (j, printProperties nums properties ++ rest) :=
      parseValue_print j hdistinct.2.1 (fun x hx => hnums x (.inl hx)) (by omega)
        (follows_printProperties properties)
    have hproperties : parseProperties nums (n + 1) (printProperties nums properties ++ rest)
        = some (properties, rest) :=
      parseProperties_print properties hdistinct.2.2 (fun x hx => hnums x (.inr hx)) (by omega)
    have hp : parseProperty nums (n + 1)
        (quote name ++ ':' :: (print nums j ++ (printProperties nums properties ++ rest)))
        = some ((name, j), printProperties nums properties ++ rest) := parseProperty_quote hj
    rw [print, List.cons_append, List.append_assoc, List.cons_append, List.append_assoc,
      parseValue, skipWs_cons rfl]
    rw [quote, List.cons_append, List.append_assoc, List.singleton_append] at hp ⊢
    simp [skipWs_cons, isWs, hp, hproperties, ofProperties_eq hdistinct.1]

/-- The same of the elements after the first one. -/
theorem parseElements_print : ∀ (js : List JsonValue) {n : ℕ} {rest : List Char}, AllDistinct js →
    (∀ x ∈ elementNumbers js, nums.Faithful x) → (printElements nums js).length < n →
    parseElements nums n (printElements nums js ++ rest) = some (js, rest)
  | [], n + 1, rest, _, _, _ => by
    rw [printElements, parseElements]
    simp [skipWs_cons, isWs]
  | j :: js, n + 1, rest, hdistinct, hnums, hlen => by
    rw [AllDistinct] at hdistinct
    simp only [elementNumbers, List.mem_append] at hnums
    rw [printElements, List.length_cons, List.length_append] at hlen
    have hj : parseValue nums n (print nums j ++ (printElements nums js ++ rest))
        = some (j, printElements nums js ++ rest) :=
      parseValue_print j hdistinct.1 (fun x hx => hnums x (.inl hx)) (by omega)
        (follows_printElements js)
    have hjs : parseElements nums n (printElements nums js ++ rest) = some (js, rest) :=
      parseElements_print js hdistinct.2 (fun x hx => hnums x (.inr hx)) (by omega)
    rw [printElements, List.cons_append, List.append_assoc, parseElements, skipWs_cons rfl]
    simp [hj, hjs]

/-- The same of the properties after the first one. -/
theorem parseProperties_print : ∀ (properties : List (String × JsonValue)) {n : ℕ}
    {rest : List Char}, PropertiesDistinct properties →
    (∀ x ∈ propertyNumbers properties, nums.Faithful x) →
    (printProperties nums properties).length < n →
    parseProperties nums n (printProperties nums properties ++ rest) = some (properties, rest)
  | [], n + 1, rest, _, _, _ => by
    rw [printProperties, parseProperties]
    simp [skipWs_cons, isWs]
  | (name, j) :: properties, n + 1, rest, hdistinct, hnums, hlen => by
    rw [PropertiesDistinct] at hdistinct
    simp only [propertyNumbers, List.mem_append] at hnums
    rw [printProperties, List.length_cons, List.length_append, List.length_cons,
      List.length_append] at hlen
    obtain ⟨n, rfl⟩ : ∃ k, n = k + 1 := ⟨n - 1, by omega⟩
    have hj : parseValue nums n (print nums j ++ (printProperties nums properties ++ rest))
        = some (j, printProperties nums properties ++ rest) :=
      parseValue_print j hdistinct.1 (fun x hx => hnums x (.inl hx)) (by omega)
        (follows_printProperties properties)
    have hproperties : parseProperties nums (n + 1) (printProperties nums properties ++ rest)
        = some (properties, rest) :=
      parseProperties_print properties hdistinct.2 (fun x hx => hnums x (.inr hx)) (by omega)
    have hp : parseProperty nums (n + 1)
        (quote name ++ ':' :: (print nums j ++ (printProperties nums properties ++ rest)))
        = some ((name, j), printProperties nums properties ++ rest) := parseProperty_quote hj
    rw [printProperties, List.cons_append, List.append_assoc, List.cons_append,
      List.append_assoc, parseProperties, skipWs_cons rfl]
    simp [hp, hproperties]

end

/-- **Reading undoes writing.** -/
theorem parse_stringify {j : JsonValue} (hdistinct : j.Distinct)
    (hnums : ∀ x ∈ j.numbers, nums.Faithful x) : parse nums (stringify nums j) = some j := by
  have hj : parseValue nums ((print nums j).length + 1) (print nums j ++ []) = some (j, []) :=
    parseValue_print j hdistinct hnums (Nat.lt_succ_self _) follows_nil
  rw [List.append_nil] at hj
  have hlist : (stringify nums j).toList = print nums j := String.toList_ofList
  have hend : skipWs [] = [] := rfl
  rw [parse, hlist]
  simp only [hj, Option.bind_eq_bind, Option.bind_some, hend, if_true]

end JsonText
