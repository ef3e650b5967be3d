import Mathlib.Data.List.Sort
import ThrottleKit.Lib.JsonText

/-!
# What JSON texts tell apart

Reading a text gives a value in which no object repeats a property, and whose numbers are those that
numerals stand for. A numeral that is out of range stands for a number that is not finite, and such
a number is written as `null`: two values have the same text exactly when they are the same with
`null` for such numbers.

An object lists its properties in the order in which they were set, except that those whose names
are array indices come first, by their numbers.

## Main definitions

* `written` — a value as its text has it, with `null` for the numbers that no numeral stands for
* `indexFirst`, `arrange` — properties in the order of the language
* `parsed` — the value of a text, with its properties in that order

## Main results

* `stringify_eq_iff` — what the text of a value tells about it
* `distinct_of_parsed`, `numbers_of_parsed` — what is read has no repeated properties, and the
  numbers of numerals
* `parsed_stringify` — reading undoes writing
-/

namespace JsonValue

/-- Induction over a value, with the elements and the properties below it. -/
theorem inductionOn {P : JsonValue → Prop} (null : P .null) (bool : ∀ b, P (.bool b))
    (num : ∀ x, P (.num x)) (str : ∀ s, P (.str s))
    (arr : ∀ js : List JsonValue, (∀ j ∈ js, P j) → P (.arr js))
    (obj : ∀ ps : List (String × JsonValue), (∀ p ∈ ps, P p.2) → P (.obj ps)) (j : JsonValue) :
    P j :=
  @JsonValue.rec P (fun js => ∀ j ∈ js, P j) (fun ps => ∀ p ∈ ps, P p.2) (fun p => P p.2)
    null bool num str arr obj (by simp)
    (fun j js hj hjs => List.forall_mem_cons.mpr ⟨hj, hjs⟩) (by simp)
    (fun p ps hp hps => List.forall_mem_cons.mpr ⟨hp, hps⟩) (fun _ _ hj => hj) j

/-! ### Elements and properties -/

theorem allDistinct_iff {js : List JsonValue} : AllDistinct js ↔ ∀ j ∈ js, j.Distinct := by
  induction js with
  | nil => simp [AllDistinct]
  | cons j js ih => rw [AllDistinct, ih, List.forall_mem_cons]

theorem propertiesDistinct_iff {ps : List (String × JsonValue)} :
    PropertiesDistinct ps ↔ ∀ p ∈ ps, p.2.Distinct := by
  induction ps with
  | nil => simp [PropertiesDistinct]
  | cons p ps ih => rw [PropertiesDistinct, ih, List.forall_mem_cons]

theorem mem_elementNumbers {js : List JsonValue} {x : ℚ} :
    x ∈ elementNumbers js ↔ ∃ j ∈ js, x ∈ j.numbers := by
  induction js with
  | nil => simp [elementNumbers]
  | cons j js ih => rw [elementNumbers, List.mem_append, ih, List.exists_mem_cons_iff]

theorem mem_propertyNumbers {ps : List (String × JsonValue)} {x : ℚ} :
    x ∈ propertyNumbers ps ↔ ∃ p ∈ ps, x ∈ p.2.numbers := by
  induction ps with
  | nil => simp [propertyNumbers]
  | cons p ps ih => rw [propertyNumbers, List.mem_append, ih, List.exists_mem_cons_iff]

theorem distinct_arr {js : List JsonValue} : (arr js).Distinct ↔ ∀ j ∈ js, j.Distinct := by
  rw [Distinct, allDistinct_iff]

theorem distinct_obj {ps : List (String × JsonValue)} :
    (obj ps).Distinct ↔ (ps.map Prod.fst).Nodup ∧ ∀ p ∈ ps, p.2.Distinct := by
  rw [Distinct, propertiesDistinct_iff]

theorem mem_numbers_arr {js : List JsonValue} {x : ℚ} :
    x ∈ (arr js).numbers ↔ ∃ j ∈ js, x ∈ j.numbers := by
  rw [numbers, mem_elementNumbers]

theorem mem_numbers_obj {ps : List (String × JsonValue)} {x : ℚ} :
    x ∈ (obj ps).numbers ↔ ∃ p ∈ ps, x ∈ p.2.numbers := by
  rw [numbers, mem_propertyNumbers]

theorem mem_of_lookup {α β : Type*} [BEq α] [LawfulBEq α] {a : α} {b : β} {l : List (α × β)}
    (h : l.lookup a = some b) : (a, b) ∈ l := by
  obtain ⟨l₁, l₂, rfl, -⟩ := List.lookup_eq_some_iff.mp h
  simp

/-- What a property holds has no repeated properties, if the object has none. -/
theorem Distinct.get {j v : JsonValue} {name : String} (h : j.Distinct)
    (hget : j.get name = some v) : v.Distinct := by
  cases j with
  | obj ps => exact (distinct_obj.mp h).2 _ (mem_of_lookup hget)
  | _ => cases hget

theorem mem_numbers_of_get {j v : JsonValue} {name : String} {x : ℚ}
    (hget : j.get name = some v) (hx : x ∈ v.numbers) : x ∈ j.numbers := by
  cases j with
  | obj ps => exact mem_numbers_obj.mpr ⟨_, mem_of_lookup hget, hx⟩
  | _ => cases hget

/-! ### The order of properties -/

/-- The number of a name that is an array index. -/
def arrayIndex (name : String) : Option ℕ :=
  let ds := name.toList
  if ds ≠ [] ∧ ds.all Char.isDigit ∧ (ds.head? = some '0' → ds.length = 1) then
    let n := ds.foldl (fun n d => n * 10 + (d.toNat - 48)) 0
    if n < 2 ^ 32 - 1 then some n else none
  else none

/-- Array indices first, by their numbers, and then the others as they stand. -/
def indexFirst {α : Type*} (ps : List (String × α)) : List (String × α) :=
  (ps.filter fun p => (arrayIndex p.1).isSome).insertionSort
      (fun p q => (arrayIndex p.1).getD 0 ≤ (arrayIndex q.1).getD 0) ++
    ps.filter fun p => !(arrayIndex p.1).isSome

theorem indexFirst_perm {α : Type*} (ps : List (String × α)) : (indexFirst ps).Perm ps :=
  ((List.perm_insertionSort _ _).append_right _).trans (List.filter_append_perm _ _)

theorem indexFirst_map {α β : Type*} (f : α → β) (ps : List (String × α)) :
    indexFirst (ps.map fun p => (p.1, f p.2)) = (indexFirst ps).map fun p => (p.1, f p.2) := by
  rw [indexFirst, indexFirst, List.map_append, List.filter_map, List.filter_map]
  congr 1
  symm
  apply List.map_insertionSort
  exact fun _ _ _ _ => Iff.rfl

mutual

/-- The value, with the properties of every object in the order of the language. -/
def arrange : JsonValue → JsonValue
  | .arr js => .arr (arrangeElements js)
  | .obj ps => .obj (indexFirst (arrangeProperties ps))
  | .null => .null
  | .bool b => .bool b
  | .num x => .num x
  | .str s => .str s

/-- The same of the elements. -/
def arrangeElements : List JsonValue → List JsonValue
  | [] => []
  | j :: js => arrange j :: arrangeElements js

/-- The same of the values of the properties. -/
def arrangeProperties : List (String × JsonValue) → List (String × JsonValue)
  | [] => []
  | (name, j) :: ps => (name, arrange j) :: arrangeProperties ps

end

theorem arrangeElements_eq (js : List JsonValue) : arrangeElements js = js.map arrange := by
  induction js with
  | nil => rfl
  | cons j js ih => rw [arrangeElements, ih, List.map_cons]

theorem arrangeProperties_eq (ps : List (String × JsonValue)) :
    arrangeProperties ps = ps.map fun p => (p.1, arrange p.2) := by
  induction ps with
  | nil => rfl
  | cons p ps ih => rw [arrangeProperties, ih, List.map_cons]

theorem arrange_arr {js : List JsonValue} (h : ∀ j ∈ js, j.arrange = j) :
    (arr js).arrange = arr js := by
  rw [arrange, arrangeElements_eq]
  congr 1
  exact (List.map_congr_left h).trans (List.map_id js)

/-- Properties whose names are not array indices stand as they were set. -/
theorem arrange_obj {ps : List (String × JsonValue)}
    (hnames : ∀ p ∈ ps, (arrayIndex p.1).isSome = false) (h : ∀ p ∈ ps, p.2.arrange = p.2) :
    (obj ps).arrange = obj ps := by
  have hvalues : arrangeProperties ps = ps := by
    rw [arrangeProperties_eq]
    refine (List.map_congr_left fun p hp => ?_).trans (List.map_id ps)
    exact Prod.ext rfl (h p hp)
  have hnone : (ps.filter fun p => (arrayIndex p.1).isSome) = [] :=
    List.filter_eq_nil_iff.mpr fun p hp => by simp [hnames p hp]
  have hall : (ps.filter fun p => !(arrayIndex p.1).isSome) = ps :=
    List.filter_eq_self.mpr fun p hp => by simp [hnames p hp]
  rw [arrange, hvalues, indexFirst, hnone, hall]
  rfl

theorem arrange_distinct (j : JsonValue) (h : j.Distinct) : j.arrange.Distinct := by
  induction j using inductionOn with
  | null | bool | num | str => exact h
  | arr js ih =>
    rw [distinct_arr] at h
    rw [arrange, arrangeElements_eq, distinct_arr, List.forall_mem_map]
    exact fun j hj => ih j hj (h j hj)
  | obj ps ih =>
    rw [distinct_obj] at h
    have hperm := indexFirst_perm (arrangeProperties ps)
    have hnames : (arrangeProperties ps).map Prod.fst = ps.map Prod.fst := by
      rw [arrangeProperties_eq, List.map_map]
      rfl
    rw [arrange, distinct_obj]
    constructor
    · rw [(hperm.map Prod.fst).nodup_iff, hnames]
      exact h.1
    · intro p hp
      rw [hperm.mem_iff, arrangeProperties_eq] at hp
      obtain ⟨q, hq, rfl⟩ := List.mem_map.mp hp
      exact ih q hq (h.2 q hq)

theorem mem_numbers_of_arrange (j : JsonValue) {x : ℚ} (hx : x ∈ j.arrange.numbers) :
    x ∈ j.numbers := by
  induction j using inductionOn with
  | null | bool | num | str => exact hx
  | arr js ih =>
    rw [arrange, arrangeElements_eq, mem_numbers_arr] at hx
    obtain ⟨k, hk, hx⟩ := hx
    obtain ⟨j, hj, rfl⟩ := List.mem_map.mp hk
    exact mem_numbers_arr.mpr ⟨j, hj, ih j hj hx⟩
  | obj ps ih =>
    rw [arrange, mem_numbers_obj] at hx
    obtain ⟨q, hq, hx⟩ := hx
    rw [(indexFirst_perm _).mem_iff, arrangeProperties_eq] at hq
    obtain ⟨p, hp, rfl⟩ := List.mem_map.mp hq
    exact mem_numbers_obj.mpr ⟨p, hp, ih p hp hx⟩

end JsonValue

namespace JsonText

open JsonValue

/-! ### What is written -/

section Written

variable (nums : Numerals)

/-- A number is written by a numeral that stands for it, or as `null`. -/
def Numerals.Writes (x : ℚ) : Prop := nums.Faithful x ∨ nums.print x = ['n', 'u', 'l', 'l']

mutual

/-- The value as its text has it. -/
def written : JsonValue → JsonValue
  | .num x => if nums.Faithful x then .num x else .null
  | .arr js => .arr (writtenElements js)
  | .obj ps => .obj (writtenProperties ps)
  | .null => .null
  | .bool b => .bool b
  | .str s => .str s

/-- The same of the elements. -/
def writtenElements : List JsonValue → List JsonValue
  | [] => []
  | j :: js => written j :: writtenElements js

/-- The same of the values of the properties. -/
def writtenProperties : List (String × JsonValue) → List (String × JsonValue)
  | [] => []
  | (name, j) :: ps => (name, written j) :: writtenProperties ps

end

end Written

variable {nums : Numerals}

theorem writtenElements_eq (js : List JsonValue) :
    writtenElements nums js = js.map (written nums) := by
  induction js with
  | nil => rfl
  | cons j js ih => rw [writtenElements, ih, List.map_cons]

theorem writtenProperties_eq (ps : List (String × JsonValue)) :
    writtenProperties nums ps = ps.map fun p => (p.1, written nums p.2) := by
  induction ps with
  | nil => rfl
  | cons p ps ih => rw [writtenProperties, ih, List.map_cons]

theorem written_arr (js : List JsonValue) :
    written nums (.arr js) = .arr (js.map (written nums)) := by
  rw [written, writtenElements_eq]

theorem written_obj (ps : List (String × JsonValue)) :
    written nums (.obj ps) = .obj (ps.map fun p => (p.1, written nums p.2)) := by
  rw [written, writtenProperties_eq]

theorem numbers_written (j : JsonValue) : ∀ x ∈ (written nums j).numbers, nums.Faithful x := by
  intro x hx
  induction j using inductionOn with
  | null | bool | str => cases hx
  | num y =>
    rw [written] at hx
    split at hx
    · obtain rfl := List.mem_singleton.mp hx
      assumption
    · cases hx
  | arr js ih =>
    rw [written_arr, mem_numbers_arr] at hx
    obtain ⟨k, hk, hx⟩ := hx
    obtain ⟨j, hj, rfl⟩ := List.mem_map.mp hk
    exact ih j hj hx
  | obj ps ih =>
    rw [written_obj, mem_numbers_obj] at hx
    obtain ⟨q, hq, hx⟩ := hx
    obtain ⟨p, hp, rfl⟩ := List.mem_map.mp hq
    exact ih p hp hx

theorem distinct_written (j : JsonValue) (h : j.Distinct) : (written nums j).Distinct := by
  induction j using inductionOn with
  | null | bool | str => exact h
  | num x =>
    rw [written]
    split <;> trivial
  | arr js ih =>
    rw [distinct_arr] at h
    rw [written_arr, distinct_arr, List.forall_mem_map]
    exact fun j hj => ih j hj (h j hj)
  | obj ps ih =>
    rw [distinct_obj] at h
    rw [written_obj, distinct_obj, List.map_map, List.forall_mem_map]
    exact ⟨h.1, fun p hp => ih p hp (h.2 p hp)⟩

/-- A value whose numbers are all finite is written as it is. -/
theorem written_eq_self (j : JsonValue) (h : ∀ x ∈ j.numbers, nums.Faithful x) :
    written nums j = j := by
  induction j using inductionOn with
  | null | bool | str => rfl
  | num x => rw [written, if_pos (h x (by simp [numbers]))]
  | arr js ih =>
    rw [written_arr]
    congr 1
    refine (List.map_congr_left fun j hj => ?_).trans (List.map_id js)
    exact ih j hj fun x hx => h x (mem_numbers_arr.mpr ⟨j, hj, hx⟩)
  | obj ps ih =>
    rw [written_obj]
    congr 1
    refine (List.map_congr_left fun p hp => ?_).trans (List.map_id ps)
    exact Prod.ext rfl (ih p hp fun x hx => h x (mem_numbers_obj.mpr ⟨p, hp, hx⟩))

theorem printElements_congr {js : List JsonValue} {f : JsonValue → JsonValue}
    (h : ∀ j ∈ js, print nums (f j) = print nums j) :
    printElements nums (js.map f) = printElements nums js := by
  induction js with
  | nil => rfl
  | cons j js ih =>
    rw [List.forall_mem_cons] at h
    rw [List.map_cons, printElements, printElements, h.1, ih h.2]

theorem printProperties_congr {ps : List (String × JsonValue)} {f : JsonValue → JsonValue}
    (h : ∀ p ∈ ps, print nums (f p.2) = print nums p.2) :
    printProperties nums (ps.map fun p => (p.1, f p.2)) = printProperties nums ps := by
  induction ps with
  | nil => rfl
  | cons p ps ih =>
    rw [List.forall_mem_cons] at h
    rw [List.map_cons, printProperties, printProperties, h.1, ih h.2]

/-- It has the text of the value. -/
theorem print_written (j : JsonValue) (h : ∀ x ∈ j.numbers, nums.Writes x) :
    print nums (written nums j) = print nums j := by
  induction j using inductionOn with
  | null | bool | str => rfl
  | num x =>
    rw [written]
    split
    · rfl
    · rename_i hnot
      rw [print, print, (h x (by simp [numbers])).resolve_left hnot]
  | arr js ih =>
    have hjs : ∀ j ∈ js, print nums (written nums j) = print nums j := fun j hj =>
      ih j hj fun x hx => h x (mem_numbers_arr.mpr ⟨j, hj, hx⟩)
    rw [written_arr]
    cases js with
    | nil => rfl
    | cons j js =>
      rw [List.forall_mem_cons] at hjs
      rw [List.map_cons, print, print, hjs.1, printElements_congr hjs.2]
  | obj ps ih =>
    have hps : ∀ p ∈ ps, print nums (written nums p.2) = print nums p.2 := fun p hp =>
      ih p hp fun x hx => h x (mem_numbers_obj.mpr ⟨p, hp, hx⟩)
    rw [written_obj]
    cases ps with
    | nil => rfl
    | cons p ps =>
      rw [List.forall_mem_cons] at hps
      rw [List.map_cons, print, print, hps.1, printProperties_congr hps.2]

/-- **Two values have the same text exactly when they are written as the same value.** -/
theorem stringify_eq_iff {j k : JsonValue} (hj : j.Distinct) (hk : k.Distinct)
    (hwj : ∀ x ∈ j.numbers, nums.Writes x) (hwk : ∀ x ∈ k.numbers, nums.Writes x) :
    stringify nums j = stringify nums k ↔ written nums j = written nums k := by
  have htext {i : JsonValue} (hw : ∀ x ∈ i.numbers, nums.Writes x) :
      stringify nums (written nums i) = stringify nums i := by
    rw [stringify, print_written i hw, stringify]
  constructor
  · intro h
    have hparse {i : JsonValue} (hi : i.Distinct) (hw : ∀ x ∈ i.numbers, nums.Writes x) :
        parse nums (stringify nums i) = some (written nums i) := by
      rw [← htext hw]
      exact parse_stringify (distinct_written i hi) (numbers_written i)
    have hpj := hparse hj hwj
    rw [h, hparse hk hwk] at hpj
    exact (Option.some.inj hpj).symm
  · intro h
    rw [← htext hwj, h, htext hwk]

/-! ### What is read -/

/-- No object of the value repeats a property, and every number is that of a numeral. -/
def Read (nums : Numerals) (j : JsonValue) : Prop :=
  j.Distinct ∧ ∀ x ∈ j.numbers, ∃ cs, isNumeral cs = true ∧ nums.read cs = x

theorem read_arr {js : List JsonValue} (h : ∀ j ∈ js, Read nums j) : Read nums (.arr js) := by
  refine ⟨distinct_arr.mpr fun j hj => (h j hj).1, fun x hx => ?_⟩
  obtain ⟨j, hj, hx⟩ := mem_numbers_arr.mp hx
  exact (h j hj).2 x hx

theorem mem_setProperty {ps : List (String × JsonValue)} {p q : String × JsonValue}
    (h : q ∈ setProperty ps p) : q = p ∨ q ∈ ps := by
  rw [setProperty] at h
  split at h
  · obtain ⟨r, hr, rfl⟩ := List.mem_map.mp h
    split
    · exact .inl rfl
    · exact .inr hr
  · exact (List.mem_append.mp h).symm.imp_left List.mem_singleton.mp

theorem nodup_setProperty {ps : List (String × JsonValue)} (p : String × JsonValue)
    (h : (ps.map Prod.fst).Nodup) : ((setProperty ps p).map Prod.fst).Nodup := by
  by_cases hp : p.1 ∈ ps.map Prod.fst
  · have hany : (ps.any fun q => q.1 = p.1) = true := by
      obtain ⟨q, hq, heq⟩ := List.mem_map.mp hp
      exact List.any_eq_true.mpr ⟨q, hq, decide_eq_true heq⟩
    have hnames : (ps.map fun q => if q.1 = p.1 then p else q).map Prod.fst = ps.map Prod.fst := by
      rw [List.map_map]
      refine List.map_congr_left fun q hq => ?_
      rw [Function.comp_apply]
      split
      · rename_i heq
        exact heq.symm
      · rfl
    rw [setProperty, hany, if_pos rfl, hnames]
    exact h
  · rw [setProperty_of_notMem hp, List.map_append, List.map_singleton]
    exact List.nodup_append.mpr ⟨h, List.nodup_singleton _, fun a ha b hb => by
      obtain rfl := List.mem_singleton.mp hb
      rintro rfl
      exact hp ha⟩

theorem read_ofProperties {ps : List (String × JsonValue)} (h : ∀ p ∈ ps, Read nums p.2) :
    Read nums (ofProperties ps) := by
  have hfold : ∀ acc : List (String × JsonValue), (acc.map Prod.fst).Nodup →
      (∀ p ∈ acc, Read nums p.2) → Read nums (.obj (ps.foldl setProperty acc)) := by
    induction ps with
    | nil =>
      intro acc hnodup hacc
      refine ⟨distinct_obj.mpr ⟨hnodup, fun p hp => (hacc p hp).1⟩, fun x hx => ?_⟩
      obtain ⟨p, hp, hx⟩ := mem_numbers_obj.mp hx
      exact (hacc p hp).2 x hx
    | cons p ps ih =>
      rw [List.forall_mem_cons] at h
      intro acc hnodup hacc
      refine ih h.2 _ (nodup_setProperty p hnodup) fun q hq => ?_
      rcases mem_setProperty hq with rfl | hq
      · exact h.1
      · exact hacc q hq
  exact hfold [] List.nodup_nil (by simp)

theorem read_leaf {j : JsonValue} (hdistinct : j.Distinct) (hnums : j.numbers = []) :
    Read nums j := ⟨hdistinct, by simp [hnums]⟩

theorem parseLiteral_eq_some {word cs rest : List Char} {j k : JsonValue}
    (h : parseLiteral word j cs = some (k, rest)) : k = j := by
  rw [parseLiteral] at h
  split at h
  · exact (Prod.mk.inj (Option.some.inj h)).1.symm
  · cases h

theorem read_parseNumber {cs rest : List Char} {j : JsonValue}
    (h : parseNumber nums cs = some (j, rest)) : Read nums j := by
  rw [parseNumber] at h
  split at h
  · rename_i hnumeral
    obtain ⟨rfl, -⟩ := Prod.mk.inj (Option.some.inj h)
    refine ⟨trivial, fun x hx => ?_⟩
    rw [numbers, List.mem_singleton] at hx
    exact ⟨_, hnumeral, hx.symm⟩
  · cases h

/-- What each function of the parser reads. -/
structure Reads (nums : Numerals) (n : ℕ) : Prop where
  value {cs j rest} : parseValue nums n cs = some (j, rest) → Read nums j
  elements {cs js rest} : parseElements nums n cs = some (js, rest) → ∀ j ∈ js, Read nums j
  property {cs p rest} : parseProperty nums n cs = some (p, rest) → Read nums p.2
  properties {cs ps rest} : parseProperties nums n cs = some (ps, rest) → ∀ p ∈ ps, Read nums p.2

theorem reads (nums : Numerals) (n : ℕ) : Reads nums n := by
  induction n with
  | zero =>
    constructor
    · intro cs j rest h
      rw [parseValue] at h
      cases h
    · intro cs js rest h
      rw [parseElements] at h
      cases h
    · intro cs p rest h
      rw [parseProperty] at h
      cases h
    · intro cs ps rest h
      rw [parseProperties] at h
      cases h
  | succ n ih =>
    constructor
    · intro cs j rest h
      rw [parseValue] at h
      split at h
      · cases h
      · obtain ⟨p, -, hp⟩ := Option.map_eq_some_iff.mp h
        obtain ⟨rfl, -⟩ := Prod.mk.inj hp
        exact read_leaf trivial rfl
      · obtain rfl := parseLiteral_eq_some h
        exact read_leaf trivial rfl
      · obtain rfl := parseLiteral_eq_some h
        exact read_leaf trivial rfl
      · obtain rfl := parseLiteral_eq_some h
        exact read_leaf trivial rfl
      · split at h
        · obtain ⟨rfl, -⟩ := Prod.mk.inj (Option.some.inj h)
          exact read_arr (by simp)
        · simp only [Option.bind_eq_bind, Option.bind_eq_some_iff] at h
          obtain ⟨⟨k, cs'⟩, hk, ⟨js, cs''⟩, hjs, heq⟩ := h
          obtain ⟨rfl, -⟩ := Prod.mk.inj (Option.some.inj heq)
          exact read_arr (List.forall_mem_cons.mpr ⟨ih.value hk, ih.elements hjs⟩)
      · split at h
        · obtain ⟨rfl, -⟩ := Prod.mk.inj (Option.some.inj h)
          exact @read_ofProperties nums [] (by simp)
        · simp only [Option.bind_eq_bind, Option.bind_eq_some_iff] at h
          obtain ⟨⟨p, cs'⟩, hp, ⟨ps, cs''⟩, hps, heq⟩ := h
          obtain ⟨rfl, -⟩ := Prod.mk.inj (Option.some.inj heq)
          exact read_ofProperties (List.forall_mem_cons.mpr ⟨ih.property hp, ih.properties hps⟩)
      · exact read_parseNumber h
    · intro cs js rest h
      rw [parseElements] at h
      split at h
      · obtain ⟨rfl, -⟩ := Prod.mk.inj (Option.some.inj h)
        simp
      · simp only [Option.bind_eq_bind, Option.bind_eq_some_iff] at h
        obtain ⟨⟨k, cs'⟩, hk, ⟨js', cs''⟩, hjs, heq⟩ := h
        obtain ⟨rfl, -⟩ := Prod.mk.inj (Option.some.inj heq)
        exact List.forall_mem_cons.mpr ⟨ih.value hk, ih.elements hjs⟩
      · cases h
    · intro cs p rest h
      rw [parseProperty] at h
      split at h
      · simp only [Option.bind_eq_bind, Option.bind_eq_some_iff] at h
        obtain ⟨⟨name, cs'⟩, -, h⟩ := h
        split at h
        · simp only [Option.bind_eq_some_iff] at h
          obtain ⟨⟨k, cs''⟩, hk, heq⟩ := h
          obtain ⟨rfl, -⟩ := Prod.mk.inj (Option.some.inj heq)
          exact ih.value hk
        · cases h
      · cases h
    · intro cs ps rest h
      rw [parseProperties] at h
      split at h
      · obtain ⟨rfl, -⟩ := Prod.mk.inj (Option.some.inj h)
        simp
      · simp only [Option.bind_eq_bind, Option.bind_eq_some_iff] at h
        obtain ⟨⟨p, cs'⟩, hp, ⟨ps', cs''⟩, hps, heq⟩ := h
        obtain ⟨rfl, -⟩ := Prod.mk.inj (Option.some.inj heq)
        exact List.forall_mem_cons.mpr ⟨ih.property hp, ih.properties hps⟩
      · cases h

theorem read_of_parse {text : String} {j : JsonValue} (h : parse nums text = some j) :
    Read nums j := by
  simp only [parse, Option.bind_eq_bind, Option.bind_eq_some_iff] at h
  obtain ⟨⟨k, rest⟩, hk, heq⟩ := h
  split at heq
  · obtain rfl := Option.some.inj heq
    exact (reads nums _).value hk
  · cases heq

/-- `JSON.parse(text)`, with properties in the order of the language. -/
def parsed (nums : Numerals) (text : String) : Option JsonValue := (parse nums text).map arrange

theorem distinct_of_parsed {text : String} {j : JsonValue} (h : parsed nums text = some j) :
    j.Distinct := by
  obtain ⟨k, hk, rfl⟩ := Option.map_eq_some_iff.mp h
  exact arrange_distinct k (read_of_parse hk).1

theorem numbers_of_parsed {text : String} {j : JsonValue} (h : parsed nums text = some j) :
    ∀ x ∈ j.numbers, ∃ cs, isNumeral cs = true ∧ nums.read cs = x := by
  obtain ⟨k, hk, rfl⟩ := Option.map_eq_some_iff.mp h
  exact fun x hx => (read_of_parse hk).2 x (mem_numbers_of_arrange k hx)

/-- **Reading undoes writing**, for a value whose properties are in order. -/
theorem parsed_stringify {j : JsonValue} (hdistinct : j.Distinct)
    (hnums : ∀ x ∈ j.numbers, nums.Faithful x) (harrange : j.arrange = j) :
    parsed nums (stringify nums j) = some j := by
  rw [parsed, parse_stringify hdistinct hnums, Option.map_some, harrange]

end JsonText
