import Mathlib.Algebra.Order.Ring.Rat

/-!
# JSON values

The values that a JSON text stands for, as a dynamically typed program sees them: a property is
looked up by its name, and a value is tested for its kind before it is used. Numbers are finite.

## Main definitions

* `JsonValue`, with `get` and the tests `isObject`, `isStr`, `isNum`, `truthy`
* `ofOption`, `optional` — a value that may be `null`, and a property that may be missing
* `Distinct` — no object has two properties of one name
* `numbers` — the numbers that occur
-/

/-- A JSON value. -/
inductive JsonValue
  | null
  | bool (b : Bool)
  | num (x : ℚ)
  | str (s : String)
  | arr (elements : List JsonValue)
  | obj (properties : List (String × JsonValue))

namespace JsonValue

/-- The property `name`, if there is one. -/
def get (j : JsonValue) (name : String) : Option JsonValue :=
  match j with
  | .obj properties => properties.lookup name
  | _ => none

/-- `typeof j === "object"`, and not `null`. -/
def isObject : JsonValue → Bool
  | .arr _ | .obj _ => true
  | _ => false

/-- Whether a property is the string `s`. -/
def isStr (j : Option JsonValue) (s : String) : Bool :=
  match j with
  | some (.str t) => t = s
  | _ => false

/-- Whether a property is the number `x`. -/
def isNum (j : Option JsonValue) (x : ℚ) : Bool :=
  match j with
  | some (.num y) => y = x
  | _ => false

/-- Whether a property is there and `null`. -/
def isNull (j : Option JsonValue) : Bool :=
  match j with
  | some .null => true
  | _ => false

/-- Whether a property counts as true. -/
def truthy (j : Option JsonValue) : Bool :=
  match j with
  | some (.bool b) => b
  | some (.num x) => x ≠ 0
  | some (.str s) => s ≠ ""
  | some (.arr _) | some (.obj _) => true
  | some .null | none => false

/-- `null` for a value that is missing. -/
def ofOption (o : Option JsonValue) : JsonValue := o.getD .null

/-- A property that is left out where its value is missing. -/
def optional (name : String) (o : Option JsonValue) : List (String × JsonValue) :=
  (o.map fun j => (name, j)).toList

@[simp] theorem isStr_self (s : String) : isStr (some (.str s)) s = true := by simp [isStr]

theorem isStr_eq_true {j : Option JsonValue} {s : String} :
    isStr j s = true ↔ j = some (.str s) := by
  constructor
  · intro h
    unfold isStr at h
    split at h
    · rw [of_decide_eq_true h]
    · cases h
  · rintro rfl
    exact isStr_self s

@[simp] theorem isNum_self (x : ℚ) : isNum (some (.num x)) x = true := by simp [isNum]

@[simp] theorem isNull_null : isNull (some .null) = true := rfl

mutual

/-- No object of the value has two properties of one name. -/
def Distinct : JsonValue → Prop
  | .null | .bool _ | .num _ | .str _ => True
  | .arr elements => AllDistinct elements
  | .obj properties => (properties.map Prod.fst).Nodup ∧ PropertiesDistinct properties

/-- The same of every element. -/
def AllDistinct : List JsonValue → Prop
  | [] => True
  | j :: js => Distinct j ∧ AllDistinct js

/-- The same of the value of every property. -/
def PropertiesDistinct : List (String × JsonValue) → Prop
  | [] => True
  | (_, j) :: properties => Distinct j ∧ PropertiesDistinct properties

end

mutual

/-- The numbers that occur in the value. -/
def numbers : JsonValue → List ℚ
  | .num x => [x]
  | .null | .bool _ | .str _ => []
  | .arr elements => elementNumbers elements
  | .obj properties => propertyNumbers properties

/-- Those of the elements. -/
def elementNumbers : List JsonValue → List ℚ
  | [] => []
  | j :: js => numbers j ++ elementNumbers js

/-- Those of the properties. -/
def propertyNumbers : List (String × JsonValue) → List ℚ
  | [] => []
  | (_, j) :: properties => numbers j ++ propertyNumbers properties

end

theorem get_obj (properties : List (String × JsonValue)) (name : String) :
    (obj properties).get name = properties.lookup name := rfl

/-- A property whose name is not its own is looked up behind it. -/
theorem lookup_optional_append_of_ne {name other : String} (h : name ≠ other)
    (o : Option JsonValue) (rest : List (String × JsonValue)) :
    (optional other o ++ rest).lookup name = rest.lookup name := by
  cases o with
  | none => rfl
  | some j =>
    have hbeq : (name == other) = false := by simpa using h
    rw [optional, Option.map_some, Option.toList_some, List.singleton_append, List.lookup_cons,
      hbeq]

theorem lookup_optional_self (name : String) (o : Option JsonValue) :
    (optional name o).lookup name = o := by
  cases o with
  | none => rfl
  | some j => simp [optional]

end JsonValue
