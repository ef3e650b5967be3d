import ThrottleKit.Config.Built
import ThrottleKit.Lib.JsonRead
import ThrottleKit.Lib.KeyedSort
import ThrottleKit.Policy.Plan

/-!
# Policy artifacts

A set of policies is written as a JSON text, with the hash of what it holds, and read back: every
policy is built again, and a hash that is not that of the rebuilt set is refused. What is hashed is
a JSON text too, in which the policies stand by their names, the fields of a spec by theirs, and the
entries that cannot be replayed by their names.

The hash does not see everything. The fields of a spec are copied to a plain object one by one, and
assigning to `__proto__` does not make a property. A number that a text writes out of range is read
as infinite and written as `null`. And a value below a field is written with its properties as they
stand, so that it is told from the same value with its properties in another order.

## What is left out

Strings are sequences of characters; a code unit that is half of one is left out. Of an error the
text is left out, but for the values that it mentions.

## Main definitions

* `policy`, `policySet`, `serializePolicySet`, `parsePolicySet`, `hashPolicySet`, `sortKeys` — the
  code
* `Same` — the same names, fields and entries in any order
* `Seen` — the same as far as the hash sees

## Main results

* `parsePolicySet_eq_ok_iff` — which texts are read, and as what
* `hashInput_eq_iff` — what the hash tells apart
* `policySetCodec_iff` — when the codec returns what it was given, hashes equal sets alike, and
  refuses a changed text
-/

namespace ThrottleKit.PolicyArtifact

open BuildStrategy JsonValue JsonText PolicyPlans
open Replay (Library StrategyIdentity)

/-! ### The platform -/

/-- The name of an entry, where it is a string. -/
def nameOf (u : JsonValue) : String :=
  match u.get "name" with
  | some (.str name) => name
  | _ => ""

/-- Every entry has a string for a name. -/
def Named (us : List JsonValue) : Prop := ∀ u ∈ us, ∃ name, u.get "name" = some (.str name)

/-- What the code is run on. -/
structure Platform where
  lib : Library
  /-- `createHash("sha256").update(text).digest("hex")`. -/
  sha256 : String → String
  /-- `us.slice().sort(byName)`, of any values; without a result where a comparison throws. In which
  order values stand that have no strings for names is up to the implementation. -/
  sortByName : List JsonValue → Option (List JsonValue)
  perm_of_sortByName {us vs : List JsonValue} : sortByName us = some vs → vs.Perm us
  sortByName_of_named {us : List JsonValue} : Named us → sortByName us =
    some (us.insertionSort fun u v => codeUnits (nameOf u) ≤ codeUnits (nameOf v))

/-- How the platform writes and reads numbers. -/
abbrev Platform.nums (pf : Platform) : Numerals := pf.lib.numerals

/-! ### Policies -/

/-- A spec: its own properties, without a value where they are `undefined`. -/
structure Spec where
  fields : List (String × Option JsonValue)
  nodup : (fields.map Prod.fst).Nodup
  distinct : ∀ e ∈ fields, ∀ j ∈ e.2, j.Distinct

/-- The properties that are defined. -/
def Spec.defined (spec : Spec) : List (String × JsonValue) :=
  spec.fields.filterMap fun e => e.2.map fun j => (e.1, j)

/-- `spec[field]`. -/
def Spec.get (spec : Spec) (field : String) : Option JsonValue := spec.defined.lookup field

/-- The spec as it is written. -/
def Spec.json (spec : Spec) : JsonValue := .obj spec.defined

/-- A field as `buildStrategy` takes it. An infinite number is refused wherever a number is read, as
anything that is no number is. -/
def readField (nums : Numerals) : JsonValue → JsonValue
  | .num x => if nums.Faithful x then .num x else .str "Infinity"
  | j => j

/-- The spec as `buildStrategy` takes it. -/
def Spec.readable (spec : Spec) (nums : Numerals) : JsonValue :=
  .obj (spec.defined.map fun p => (p.1, readField nums p.2))

/-- A JSON value as a spec. An array has none of the properties of one. -/
def Spec.ofJson : (j : JsonValue) → j.Distinct → Spec
  | .obj ps, h => {
      fields := ps.map fun p => (p.1, some p.2)
      nodup := by
        rw [List.map_map]
        exact (distinct_obj.mp h).1
      distinct := by
        rw [List.forall_mem_map]
        rintro p hp j ⟨⟩
        exact (distinct_obj.mp h).2 p hp }
  | _, _ => ⟨[], List.nodup_nil, by simp⟩

/-- A policy: its spec can be built. -/
structure Policy (pf : Platform) where
  name : String
  spec : Spec
  strategy : Peekable
  name_ne : name ≠ ""
  built : buildStrategy name (spec.readable pf.nums) = .ok strategy

/-- What a limiter is built from again, and what the result is checked against. -/
structure Fingerprint where
  spec : Spec
  strategy : StrategyIdentity
  clock : String
  axis : String
  policy : Option String
  luaSha1 : Option String
  /-- `prefix`. -/
  keyPrefix : Option JsonValue

/-- `fingerprint({ spec, strategy, clock: "manual", prefix: spec.prefix })`. -/
def Policy.fingerprint {pf : Platform} (p : Policy pf) : Fingerprint where
  spec := p.spec
  strategy := ⟨p.strategy.strategy.name, p.strategy.strategy.limit, Replay.windowMs p.strategy,
    p.strategy.strategy.ttlMs⟩
  clock := "manual"
  axis := "rate"
  policy := none
  luaSha1 := pf.lib.luaSha1 p.strategy
  keyPrefix := p.spec.get "prefix"

/-- A set of policies. Without a value where a property is missing. -/
structure PolicySet (pf : Platform) where
  label : Option String
  policies : List (Policy pf)
  unreplayable : Option JsonValue
  contentHash : String

/-- How the code throws. -/
inductive ArtifactError
  /-- `policy: name must be a non-empty string`. -/
  | name
  /-- What `buildStrategy` throws. -/
  | spec (cause : BuildError)
  /-- `policySet: duplicate policy name`. -/
  | duplicateName (name : String)
  /-- `policySet: name is in both policies and unreplayable (ambiguous)`. -/
  | ambiguous (name : Option JsonValue)
  /-- `parsePolicySet: not valid JSON`. -/
  | notJson
  /-- `parsePolicySet: expected an object`. -/
  | notObject
  /-- `parsePolicySet: unsupported format version`. -/
  | version (v : Option JsonValue)
  /-- `parsePolicySet: ``policies`` must be an array`. -/
  | policies
  /-- `parsePolicySet: each policy needs a string name and an object spec`. -/
  | policyShape
  /-- `parsePolicySet: contentHash mismatch`. -/
  | contentHash (serialized rebuilt : String)
  /-- A `TypeError` of the language. -/
  | typeError

section Code

variable (pf : Platform)

/-- `policy(name, spec)`. -/
def policy (name : String) (spec : Spec) : Except ArtifactError (Policy pf) :=
  if hname : name = "" then .error .name
  else match hbuilt : buildStrategy name (spec.readable pf.nums) with
    | .error e => .error (.spec e)
    | .ok strategy => .ok ⟨name, spec, strategy, hname, hbuilt⟩

variable {pf}

/-- The first loop of `policySet`. -/
def addPolicies (seen : List String) : List (Policy pf) → Except ArtifactError (List String)
  | [] => .ok seen
  | p :: ps =>
    if p.name ∈ seen then .error (.duplicateName p.name) else addPolicies (p.name :: seen) ps

/-- Whether two values are the same element of a `Set`. Two objects that were read are not. -/
def sameElement : Option JsonValue → Option JsonValue → Bool
  | none, none => true
  | some .null, some .null => true
  | some (.bool a), some (.bool b) => a = b
  | some (.num x), some (.num y) => x = y
  | some (.str s), some (.str t) => s = t
  | _, _ => false

/-- The second loop of `policySet`. -/
def addUnreplayable (seen : List (Option JsonValue)) : List JsonValue → Except ArtifactError Unit
  | [] => .ok ()
  | u :: us =>
    if isNull (some u) then .error .typeError
    else if seen.any (sameElement (u.get "name")) then .error (.ambiguous (u.get "name"))
    else addUnreplayable (u.get "name" :: seen) us

/-- The elements of `unreplayable ?? []`. -/
def elements : Option JsonValue → Except ArtifactError (List JsonValue)
  | none | some .null => .ok []
  | some (.arr us) => .ok us
  | some (.str s) => .ok (s.toList.map fun c => .str (.singleton c))
  | some _ => .error .typeError

/-- `out[k] = value`. Assigning to `__proto__` sets the prototype, or nothing. -/
def assign (out : List (String × JsonValue)) (p : String × JsonValue) : List (String × JsonValue) :=
  if p.1 = "__proto__" then out else setProperty out p

/-- One turn of the loop of `sortKeys`. -/
def copyField (out : List (String × JsonValue)) (e : String × Option JsonValue) :
    List (String × JsonValue) :=
  match e.2 with
  | none => out
  | some j => assign out (e.1, j)

/-- `sortKeys(spec)`. -/
def sortKeys (spec : Spec) : List (String × JsonValue) :=
  indexFirst ((spec.fields.insertionSort fun a b => codeUnits a.1 ≤ codeUnits b.1).foldl
    copyField [])

/-- `{ name: p.name, spec: sortKeys(p.spec) }`. -/
def canonicalPolicy (p : Policy pf) : JsonValue :=
  .obj [("name", .str p.name), ("spec", .obj (sortKeys p.spec))]

/-- `{ name: u.name, reason: u.reason }`. -/
def canonicalEntry (u : JsonValue) : JsonValue :=
  .obj (optional "name" (u.get "name") ++ optional "reason" (u.get "reason"))

variable (pf)

/-- `(unreplayable ?? []).slice().sort(byName)`. -/
def sortEntries : Option JsonValue → Except ArtifactError (List JsonValue)
  | none | some .null => .ok []
  | some (.arr us) =>
    match pf.sortByName us with
    | some vs => .ok vs
    | none => .error .typeError
  | some _ => .error .typeError

/-- What `hashPolicySet` hashes, as a value. -/
def canon (policies : List (Policy pf)) (unreplayable : Option JsonValue) :
    Except ArtifactError JsonValue := do
  let entries ← sortEntries pf unreplayable
  let sorted := policies.insertionSort fun p q => codeUnits p.name ≤ codeUnits q.name
  return .obj [("policies", .arr (sorted.map canonicalPolicy)),
    ("unreplayable", .arr (entries.map canonicalEntry))]

/-- What `hashPolicySet` hashes. -/
def hashInput (policies : List (Policy pf)) (unreplayable : Option JsonValue) :
    Except ArtifactError String := do
  let value ← canon pf policies unreplayable
  return stringify pf.nums value

/-- `hashPolicySet(policies, unreplayable)`. -/
def hashPolicySet (policies : List (Policy pf)) (unreplayable : Option JsonValue) :
    Except ArtifactError String := do
  let input ← hashInput pf policies unreplayable
  return pf.sha256 input

/-- `policySet(policies, { label, unreplayable })`. -/
def policySet (policies : List (Policy pf)) (label : Option String)
    (unreplayable : Option JsonValue) : Except ArtifactError (PolicySet pf) := do
  let seen ← addPolicies [] policies
  let us ← elements unreplayable
  addUnreplayable (seen.map fun name => some (.str name)) us
  let contentHash ← hashPolicySet pf policies unreplayable
  return ⟨label, policies, unreplayable, contentHash⟩

/-- `POLICY_SET_FORMAT_VERSION`. -/
def policySetFormatVersion : ℚ := 1

variable {pf}

/-- `{ name: p.name, spec: p.spec }`. -/
def policyJson (p : Policy pf) : JsonValue := .obj [("name", .str p.name), ("spec", p.spec.json)]

/-- The properties that `serializePolicySet` writes. -/
def payload (set : PolicySet pf) : List (String × JsonValue) :=
  [("v", .num policySetFormatVersion)] ++ (optional "label" (set.label.map .str) ++
    ([("contentHash", .str set.contentHash), ("policies", .arr (set.policies.map policyJson))] ++
      optional "unreplayable" set.unreplayable))

/-- `serializePolicySet(set)`. -/
def serializePolicySet (set : PolicySet pf) : String := stringify pf.nums (.obj (payload set))

variable (pf)

/-- One turn of the loop over `r.policies`. -/
def parsePolicy (p : JsonValue) (h : p.Distinct) : Except ArtifactError (Policy pf) :=
  if isNull (some p) then .error .typeError
  else match p.get "name", hspec : p.get "spec" with
    | some (.str name), some spec =>
      if spec.isObject then policy pf name (.ofJson spec (h.get hspec)) else .error .policyShape
    | _, _ => .error .policyShape

/-- The loop over `r.policies`. -/
def parsePolicies : (js : List JsonValue) → (∀ j ∈ js, j.Distinct) →
    Except ArtifactError (List (Policy pf))
  | [], _ => .ok []
  | j :: js, h => do
    let p ← parsePolicy pf j (h j List.mem_cons_self)
    let ps ← parsePolicies js fun k hk => h k (List.mem_cons_of_mem _ hk)
    return p :: ps

/-- A property that counts only where it is a string. -/
def string? : Option JsonValue → Option String
  | some (.str s) => some s
  | _ => none

/-- Whether a value is an object, and no array. -/
def isRecord : JsonValue → Bool
  | .obj _ => true
  | _ => false

/-- `parsePolicySet(text)`, behind `JSON.parse`. -/
def rebuild (r : JsonValue) (h : r.Distinct) : Except ArtifactError (PolicySet pf) :=
  if !isRecord r then .error .notObject
  else if !isNum (r.get "v") policySetFormatVersion then .error (.version (r.get "v"))
  else match hpolicies : r.get "policies" with
    | some (.arr js) => do
      let policies ← parsePolicies pf js (distinct_arr.mp (h.get hpolicies))
      let rebuilt ← policySet pf policies (string? (r.get "label")) (r.get "unreplayable")
      match string? (r.get "contentHash") with
      | some serialized =>
        if serialized ≠ rebuilt.contentHash then
          throw (.contentHash serialized rebuilt.contentHash)
        else return rebuilt
      | none => return rebuilt
    | _ => .error .policies

/-- `parsePolicySet(text)`. -/
def parsePolicySet (text : String) : Except ArtifactError (PolicySet pf) :=
  match hraw : parsed pf.nums text with
  | none => .error .notJson
  | some raw => rebuild pf raw (distinct_of_parsed hraw)

end Code

/-! ### What two sets have in common -/

mutual

/-- The value, with the properties of every object by their names. -/
def normal : JsonValue → JsonValue
  | .arr js => .arr (normalElements js)
  | .obj ps =>
    .obj ((normalProperties ps).insertionSort fun p q => codeUnits p.1 ≤ codeUnits q.1)
  | .null => .null
  | .bool b => .bool b
  | .num x => .num x
  | .str s => .str s

/-- The same of the elements. -/
def normalElements : List JsonValue → List JsonValue
  | [] => []
  | j :: js => normal j :: normalElements js

/-- The same of the values of the properties. -/
def normalProperties : List (String × JsonValue) → List (String × JsonValue)
  | [] => []
  | (name, j) :: ps => (name, normal j) :: normalProperties ps

end

/-- Two values are the same, with the properties of objects in any order. -/
def SameValue (j k : JsonValue) : Prop := normal j = normal k

section Common

variable {pf : Platform}

/-- The policy of a name. -/
def PolicySet.policy? (A : PolicySet pf) (name : String) : Option (Policy pf) :=
  A.policies.find? fun p => p.name = name

/-- The field of the spec of a name. -/
def PolicySet.field (A : PolicySet pf) (name field : String) : Option JsonValue :=
  (A.policy? name).bind fun p => p.spec.get field

/-- The entries that cannot be replayed, if they can be listed. -/
def listed : Option JsonValue → Option (List JsonValue)
  | none | some .null => some []
  | some (.arr us) => some us
  | some _ => none

/-- The name and the reason of an entry. -/
def entry (u : JsonValue) : Option JsonValue × Option JsonValue := (u.get "name", u.get "reason")

/-- The same names, fields that stand in a relation, and the same entries, in any order. -/
structure Alike (R : String → Option JsonValue → Option JsonValue → Prop) (A B : PolicySet pf) :
    Prop where
  names : (A.policies.map Policy.name).Perm (B.policies.map Policy.name)
  fields : ∀ name field, R field (A.field name field) (B.field name field)
  entries : ∃ us vs, listed A.unreplayable = some us ∧ listed B.unreplayable = some vs ∧
    (us.map entry).Perm (vs.map entry)

/-- Two sets hold the same names with the same defined fields and the same entries. -/
def Same : PolicySet pf → PolicySet pf → Prop := Alike fun _ => Option.Rel SameValue

/-- Two sets are the same as far as the hash sees: but for the fields `__proto__`, with `null` for a
number that is not finite, and with the properties of a value as they stand. -/
def Seen : PolicySet pf → PolicySet pf → Prop :=
  Alike fun field a b => field ≠ "__proto__" → a.map (written pf.nums) = b.map (written pf.nums)

/-- Two sets differ, but not as far as the hash sees. -/
def Hidden (A B : PolicySet pf) : Prop := Seen A B ∧ ¬ Same A B

/-- Two sets are the same, but for the order of the properties of some value. -/
def Rearranged (A B : PolicySet pf) : Prop := Same A B ∧ ¬ Seen A B

end Common

/-! ### The order of names -/

/-- The code units of a character. -/
def charUnits (c : Char) : List ℕ :=
  if c.toNat < 0x10000 then [c.toNat]
  else [0xD800 + (c.toNat - 0x10000) / 0x400, 0xDC00 + (c.toNat - 0x10000) % 0x400]

/-- The code units of a character are told from what stands behind them. -/
theorem charUnits_append {c d : Char} {xs ys : List ℕ}
    (h : charUnits c ++ xs = charUnits d ++ ys) : c = d ∧ xs = ys := by
  have hc : c.toNat < 0xD800 ∨ 0xDFFF < c.toNat ∧ c.toNat < 0x110000 := c.valid
  have hd : d.toNat < 0xD800 ∨ 0xDFFF < d.toNat ∧ d.toNat < 0x110000 := d.valid
  have heq (h : c.toNat = d.toNat) : c = d := Char.toNat_inj.mp h
  rw [charUnits, charUnits] at h
  split at h
  · split at h
    · obtain ⟨h₁, h₂⟩ := List.cons.inj h
      exact ⟨heq h₁, h₂⟩
    · obtain ⟨h₁, -⟩ := List.cons.inj h
      omega
  · split at h
    · obtain ⟨h₁, -⟩ := List.cons.inj h
      omega
    · obtain ⟨h₁, h⟩ := List.cons.inj h
      obtain ⟨h₂, h₃⟩ := List.cons.inj h
      exact ⟨heq (by omega), h₃⟩

theorem charUnits_ne_nil (c : Char) : charUnits c ≠ [] := by
  rw [charUnits]
  split <;> exact List.cons_ne_nil _ _

theorem flatMap_charUnits_injective : Function.Injective (List.flatMap charUnits) := by
  intro cs
  induction cs with
  | nil =>
    intro ds h
    cases ds with
    | nil => rfl
    | cons d ds => exact absurd (List.append_eq_nil_iff.mp h.symm).1 (charUnits_ne_nil d)
  | cons c cs ih =>
    intro ds h
    cases ds with
    | nil => exact absurd (List.append_eq_nil_iff.mp h).1 (charUnits_ne_nil c)
    | cons d ds =>
      rw [List.flatMap_cons, List.flatMap_cons] at h
      obtain ⟨rfl, hrest⟩ := charUnits_append h
      rw [ih hrest]

/-- Strings are told apart by their code units. -/
theorem codeUnits_injective : Function.Injective codeUnits := fun _ _ h =>
  String.toList_inj.mp (flatMap_charUnits_injective h)

section Order

variable {α : Type} {f : α → String}

instance : Std.Total fun a b : α => codeUnits (f a) ≤ codeUnits (f b) :=
  ⟨fun _ _ => le_total _ _⟩

instance : IsTrans α fun a b => codeUnits (f a) ≤ codeUnits (f b) :=
  ⟨fun _ _ _ => le_trans⟩

/-- Elements of different names are told apart by the order of the names. -/
theorem eq_of_codeUnits_le {l : List α} (hl : (l.map f).Nodup) :
    ∀ a ∈ l, ∀ b ∈ l, codeUnits (f a) ≤ codeUnits (f b) → codeUnits (f b) ≤ codeUnits (f a) →
      a = b :=
  fun _ ha _ hb hab hba =>
    List.inj_on_of_nodup_map hl ha hb (codeUnits_injective (le_antisymm hab hba))

end Order

/-! ### The fields of a spec -/

section Fields

variable {pf : Platform}

theorem filterMap_fst_sublist (fields : List (String × Option JsonValue)) :
    ((fields.filterMap fun e => e.2.map fun j => (e.1, j)).map Prod.fst).Sublist
      (fields.map Prod.fst) := by
  induction fields with
  | nil => exact List.Sublist.refl _
  | cons e fields ih =>
    obtain ⟨name, o⟩ := e
    cases o with
    | none => exact ih.trans (List.sublist_cons_self _ _)
    | some j => exact ih.cons_cons name

theorem Spec.nodup_defined (spec : Spec) : (spec.defined.map Prod.fst).Nodup :=
  spec.nodup.sublist (filterMap_fst_sublist spec.fields)

theorem Spec.distinct_of_mem (spec : Spec) {p : String × JsonValue} (hp : p ∈ spec.defined) :
    p.2.Distinct := by
  obtain ⟨e, he, hmap⟩ := List.mem_filterMap.mp hp
  obtain ⟨j, hj, rfl⟩ := Option.map_eq_some_iff.mp hmap
  exact spec.distinct e he j hj

theorem Spec.distinct_json (spec : Spec) : spec.json.Distinct :=
  distinct_obj.mpr ⟨spec.nodup_defined, fun _ hp => spec.distinct_of_mem hp⟩

/-- The fields that are copied. -/
def copied (fields : List (String × Option JsonValue)) : List (String × JsonValue) :=
  (fields.filterMap fun e => e.2.map fun j => (e.1, j)).filter fun p => p.1 ≠ "__proto__"

theorem copied_cons (name : String) (j : JsonValue) (fields : List (String × Option JsonValue)) :
    copied ((name, some j) :: fields) =
      if name = "__proto__" then copied fields else (name, j) :: copied fields := by
  simp only [copied, List.filterMap_cons, Option.map_some, List.filter_cons]
  split <;> simp_all

theorem foldl_copyField {fields : List (String × Option JsonValue)}
    {out : List (String × JsonValue)} (hnodup : (fields.map Prod.fst).Nodup)
    (hout : ∀ p ∈ out, p.1 ∉ fields.map Prod.fst) :
    fields.foldl copyField out = out ++ copied fields := by
  induction fields generalizing out with
  | nil => exact (List.append_nil out).symm
  | cons e fields ih =>
    obtain ⟨name, o⟩ := e
    rw [List.map_cons, List.nodup_cons] at hnodup
    have hout' : ∀ p ∈ out, p.1 ∉ fields.map Prod.fst := fun p hp hmem =>
      hout p hp (List.mem_cons_of_mem _ hmem)
    cases o with
    | none =>
      rw [List.foldl_cons, copyField, ih hnodup.2 hout']
      rfl
    | some j =>
      have hcopy : copyField out (name, some j) = assign out (name, j) := rfl
      rw [List.foldl_cons, hcopy]
      by_cases hname : name = "__proto__"
      · rw [assign, if_pos hname, ih hnodup.2 hout', copied_cons, if_pos hname]
      · have hnew : name ∉ out.map Prod.fst := by
          intro hmem
          obtain ⟨p, hp, rfl⟩ := List.mem_map.mp hmem
          exact hout p hp List.mem_cons_self
        rw [assign, if_neg hname, setProperty_of_notMem hnew, ih hnodup.2, copied_cons,
          if_neg hname, List.append_assoc, List.singleton_append]
        intro p hp
        rcases List.mem_append.mp hp with hp | hp
        · exact hout' p hp
        · obtain rfl := List.mem_singleton.mp hp
          exact hnodup.1

theorem copied_perm {fields fields' : List (String × Option JsonValue)}
    (h : fields.Perm fields') : (copied fields).Perm (copied fields') :=
  (h.filterMap _).filter _

theorem sortKeys_eq (spec : Spec) : sortKeys spec =
    indexFirst (copied (spec.fields.insertionSort fun a b => codeUnits a.1 ≤ codeUnits b.1)) := by
  have hperm : (spec.fields.insertionSort fun a b => codeUnits a.1 ≤ codeUnits b.1).Perm
      spec.fields := List.perm_insertionSort _ _
  have hfoldl : (spec.fields.insertionSort fun a b => codeUnits a.1 ≤ codeUnits b.1).foldl
      copyField [] = [] ++ copied _ :=
    foldl_copyField ((hperm.map Prod.fst).nodup_iff.mpr spec.nodup) (by simp)
  rw [sortKeys, hfoldl, List.nil_append]

theorem sortKeys_perm (spec : Spec) : (sortKeys spec).Perm (copied spec.fields) := by
  rw [sortKeys_eq]
  exact (indexFirst_perm _).trans (copied_perm (List.perm_insertionSort _ _))

theorem nodup_copied (spec : Spec) : ((copied spec.fields).map Prod.fst).Nodup :=
  spec.nodup_defined.sublist (List.filter_sublist.map _)

/-- What is copied of a spec: its defined fields, but for `__proto__`. -/
theorem lookup_copied (spec : Spec) (field : String) :
    (copied spec.fields).lookup field = if field = "__proto__" then none else spec.get field := by
  refine Option.ext fun j => ?_
  rw [KeyedSort.lookup_eq_some_iff (nodup_copied spec), copied, List.mem_filter]
  split
  · rename_i h
    simp [h]
  · rename_i h
    rw [Spec.get, KeyedSort.lookup_eq_some_iff spec.nodup_defined]
    simp [h, Spec.defined]

/-- The copy of a spec, as it is written. -/
def seenFields (nums : Numerals) (spec : Spec) : List (String × JsonValue) :=
  (sortKeys spec).map fun p => (p.1, written nums p.2)

variable {nums : Numerals}

theorem copied_insertionSort (spec : Spec) :
    copied (spec.fields.insertionSort fun a b => codeUnits a.1 ≤ codeUnits b.1) =
      (copied spec.fields).insertionSort fun a b => codeUnits a.1 ≤ codeUnits b.1 := by
  have hsorted : (copied (spec.fields.insertionSort fun a b =>
      codeUnits a.1 ≤ codeUnits b.1)).Pairwise fun a b => codeUnits a.1 ≤ codeUnits b.1 := by
    refine List.Pairwise.filter _ (List.Pairwise.filterMap _ (fun a b hab p hp q hq => ?_)
      (List.pairwise_insertionSort _ spec.fields))
    obtain ⟨j, -, rfl⟩ := Option.map_eq_some_iff.mp hp
    obtain ⟨k, -, rfl⟩ := Option.map_eq_some_iff.mp hq
    exact hab
  rw [← hsorted.insertionSort_eq, KeyedSort.insertionSort_eq_iff]
  · exact copied_perm (List.perm_insertionSort _ _)
  · have hperm := copied_perm (List.perm_insertionSort
      (fun a b : String × Option JsonValue => codeUnits a.1 ≤ codeUnits b.1) spec.fields)
    exact eq_of_codeUnits_le ((hperm.map Prod.fst).nodup_iff.mpr (nodup_copied spec))

theorem seenFields_eq (spec : Spec) : seenFields nums spec =
    indexFirst (((copied spec.fields).map fun p => (p.1, written nums p.2)).insertionSort
      fun a b => codeUnits a.1 ≤ codeUnits b.1) := by
  rw [seenFields, sortKeys_eq, copied_insertionSort, ← indexFirst_map]
  congr 1
  apply List.map_insertionSort
  exact fun _ _ _ _ => Iff.rfl

/-- **The copies of two specs are written alike exactly when their defined fields are**, but for
`__proto__`. -/
theorem seenFields_eq_iff (s t : Spec) : seenFields nums s = seenFields nums t ↔
    ∀ field, field ≠ "__proto__" →
      (s.get field).map (written nums) = (t.get field).map (written nums) := by
  have hnodup (s : Spec) :
      (((copied s.fields).map fun p => (p.1, written nums p.2)).map Prod.fst).Nodup := by
    rw [List.map_map]
    exact nodup_copied s
  have hperm (s : Spec) : (seenFields nums s).Perm
      ((copied s.fields).map fun p => (p.1, written nums p.2)) := (sortKeys_perm s).map _
  have hfields : ((copied s.fields).map fun p => (p.1, written nums p.2)).Perm
      ((copied t.fields).map fun p => (p.1, written nums p.2)) ↔ ∀ field, field ≠ "__proto__" →
      (s.get field).map (written nums) = (t.get field).map (written nums) := by
    rw [KeyedSort.perm_iff_lookup (hnodup s) (hnodup t)]
    refine forall_congr' fun field => ?_
    rw [KeyedSort.lookup_map_snd, KeyedSort.lookup_map_snd, lookup_copied, lookup_copied]
    split
    · rename_i h
      simp [h]
    · rename_i h
      simp [h]
  rw [← hfields]
  constructor
  · intro h
    exact (hperm s).symm.trans (h ▸ hperm t)
  · intro h
    rw [seenFields_eq, seenFields_eq,
      (KeyedSort.insertionSort_eq_iff (eq_of_codeUnits_le (hnodup s))).mpr h]

end Fields

/-! ### What is hashed of the policies -/

section Views

variable {pf : Platform} {A B : PolicySet pf}

/-- A policy, as far as the hash sees. -/
def view (p : Policy pf) : String × List (String × JsonValue) :=
  (p.name, seenFields pf.nums p.spec)

/-- What is written of a policy. -/
def ofView (v : String × List (String × JsonValue)) : JsonValue :=
  .obj [("name", .str v.1), ("spec", .obj v.2)]

theorem ofView_injective : Function.Injective ofView := by
  rintro ⟨name, fields⟩ ⟨name', fields'⟩ h
  simpa [ofView] using h

theorem written_canonicalPolicy (p : Policy pf) :
    written pf.nums (canonicalPolicy p) = ofView (view p) := by
  rw [canonicalPolicy, written_obj]
  simp only [List.map_cons, List.map_nil, written_obj]
  rfl

theorem policy?_eq_lookup (A : PolicySet pf) (name : String) :
    (A.policies.map view).lookup name =
      (A.policy? name).map fun p => seenFields pf.nums p.spec := by
  have hfind : (A.policies.find? fun p => name == p.name) = A.policy? name := by
    rw [PolicySet.policy?]
    congr 1
    funext p
    rw [Bool.eq_iff_iff, beq_iff_eq, decide_eq_true_iff]
    exact eq_comm
  rw [← hfind]
  exact KeyedSort.lookup_map _ _ _

theorem isSome_policy? (A : PolicySet pf) (name : String) :
    (A.policy? name).isSome = true ↔ name ∈ A.policies.map Policy.name := by
  rw [PolicySet.policy?, List.find?_isSome, List.mem_map]
  simp

/-- **Two sets have the same policies as far as the hash sees** exactly when they have the same
names, and the same defined fields but for `__proto__`. -/
theorem perm_views_iff (hA : (A.policies.map Policy.name).Nodup) :
    (A.policies.map view).Perm (B.policies.map view) ↔
      (A.policies.map Policy.name).Perm (B.policies.map Policy.name) ∧
      ∀ name field, field ≠ "__proto__" →
        (A.field name field).map (written pf.nums) =
          (B.field name field).map (written pf.nums) := by
  have hfst (A : PolicySet pf) : (A.policies.map view).map Prod.fst
    = A.policies.map Policy.name := by
    rw [List.map_map]
    rfl
  have hnames (h : (A.policies.map view).Perm (B.policies.map view)) :
      (A.policies.map Policy.name).Perm (B.policies.map Policy.name) := by
    have hmap := h.map Prod.fst
    rwa [hfst, hfst] at hmap
  -- with the same names, the lookups agree exactly when the fields do
  have hlookup (h : (A.policies.map Policy.name).Perm (B.policies.map Policy.name))
      (name : String) : (A.policies.map view).lookup name = (B.policies.map view).lookup name ↔
        ∀ field, field ≠ "__proto__" → (A.field name field).map (written pf.nums) =
          (B.field name field).map (written pf.nums) := by
    have hsome : (A.policy? name).isSome = true ↔ (B.policy? name).isSome = true := by
      rw [isSome_policy?, isSome_policy?, h.mem_iff]
    rw [policy?_eq_lookup, policy?_eq_lookup]
    unfold PolicySet.field
    cases ha : A.policy? name with
    | none =>
      cases hb : B.policy? name with
      | none => simp
      | some q => simp [ha, hb] at hsome
    | some p =>
      cases hb : B.policy? name with
      | none => simp [ha, hb] at hsome
      | some q =>
        rw [Option.map_some, Option.map_some, Option.some.injEq, seenFields_eq_iff]
        rfl
  constructor
  · intro h
    refine ⟨hnames h, fun name => (hlookup (hnames h) name).mp ?_⟩
    refine (KeyedSort.perm_iff_lookup ?_ ?_).mp h name
    · rw [hfst]
      exact hA
    · rw [hfst]
      exact (hnames h).nodup_iff.mp hA
  · rintro ⟨h, hfields⟩
    refine (KeyedSort.perm_iff_lookup ?_ ?_).mpr fun name => (hlookup h name).mpr (hfields name)
    · rw [hfst]
      exact hA
    · rw [hfst]
      exact h.nodup_iff.mp hA

theorem written_sorted_policies (policies : List (Policy pf)) :
    ((policies.insertionSort fun p q => codeUnits p.name ≤ codeUnits q.name).map
        canonicalPolicy).map (written pf.nums) =
      ((policies.map view).insertionSort fun a b => codeUnits a.1 ≤ codeUnits b.1).map ofView := by
  rw [← List.map_insertionSort (fun p q : Policy pf => codeUnits p.name ≤ codeUnits q.name) _ view
    policies fun _ _ _ _ => Iff.rfl, List.map_map, List.map_map]
  exact List.map_congr_left fun p _ => written_canonicalPolicy p

/-- The policies of two sets are written alike exactly when the hash sees the same of them. -/
theorem written_policies_eq_iff (hA : (A.policies.map Policy.name).Nodup) :
    ((A.policies.insertionSort fun p q => codeUnits p.name ≤ codeUnits q.name).map
        canonicalPolicy).map (written pf.nums) =
      ((B.policies.insertionSort fun p q => codeUnits p.name ≤ codeUnits q.name).map
        canonicalPolicy).map (written pf.nums) ↔
      (A.policies.map view).Perm (B.policies.map view) := by
  have hnodup : ((A.policies.map view).map Prod.fst).Nodup := by
    rw [List.map_map]
    exact hA
  rw [written_sorted_policies, written_sorted_policies,
    (List.map_injective_iff.mpr ofView_injective).eq_iff,
    KeyedSort.insertionSort_eq_iff (eq_of_codeUnits_le hnodup)]

end Views

/-! ### What is hashed of the entries -/

section Entries

variable {pf : Platform}

/-- An entry as it is typed. -/
def entryJson (u : UnreplayablePolicy) : JsonValue :=
  .obj [("name", .str u.name), ("reason", .str u.reason)]

/-- Its name and its reason, as `entry` reads them back. -/
def typedEntry (u : UnreplayablePolicy) : Option JsonValue × Option JsonValue :=
  (some (.str u.name), some (.str u.reason))

/-- What is written of an entry. -/
def ofEntry (e : Option JsonValue × Option JsonValue) : JsonValue :=
  .obj (optional "name" e.1 ++ optional "reason" e.2)

theorem ofEntry_injective : Function.Injective ofEntry := by
  have hname (e : Option JsonValue × Option JsonValue) : (ofEntry e).get "name" = e.1 := by
    rw [ofEntry, get_obj]
    obtain ⟨- | j, o⟩ := e
    · cases o <;> rfl
    · rfl
  have hreason (e : Option JsonValue × Option JsonValue) : (ofEntry e).get "reason" = e.2 := by
    rw [ofEntry, get_obj, lookup_optional_append_of_ne (by decide)]
    obtain ⟨o, - | j⟩ := e <;> rfl
  intro e e' h
  refine Prod.ext ?_ ?_
  · rw [← hname e, h, hname]
  · rw [← hreason e, h, hreason]

theorem written_canonicalEntry {nums : Numerals} (u : JsonValue) :
    written nums (canonicalEntry u) =
      ofEntry ((entry u).1.map (written nums), (entry u).2.map (written nums)) := by
  rw [canonicalEntry, written_obj, ofEntry, entry]
  cases u.get "name" <;> cases u.get "reason" <;> rfl

theorem eq_str_of_written {nums : Numerals} {j : JsonValue} {s : String}
    (h : written nums j = .str s) : j = .str s := by
  cases j with
  | str t => exact h
  | num x =>
    rw [written] at h
    split at h <;> cases h
  | _ => cases h

/-- An entry that is written like a typed one is that one. -/
theorem entry_eq_of_written {nums : Numerals} {us : List UnreplayablePolicy} {vs : List JsonValue}
    (h : (us.map entryJson).map (fun u => written nums (canonicalEntry u)) =
      vs.map fun v => written nums (canonicalEntry v)) :
    us.map typedEntry = vs.map entry := by
  induction us generalizing vs with
  | nil =>
    rw [List.map_nil, List.map_nil] at h
    rw [List.map_eq_nil_iff.mp h.symm]
    rfl
  | cons u us ih =>
    cases vs with
    | nil => cases h
    | cons v vs =>
      simp only [List.map_cons] at h
      obtain ⟨hhead, htail⟩ := List.cons.inj h
      rw [List.map_cons, List.map_cons, ih htail]
      congr 1
      rw [written_canonicalEntry, written_canonicalEntry] at hhead
      obtain ⟨hname, hreason⟩ := Prod.mk.inj (ofEntry_injective hhead)
      obtain ⟨j, hj, hstr⟩ := Option.map_eq_some_iff.mp hname.symm
      obtain ⟨k, hk, hstr'⟩ := Option.map_eq_some_iff.mp hreason.symm
      refine Prod.ext ?_ ?_
      · rw [hj, eq_str_of_written (hstr.trans rfl)]
        rfl
      · rw [hk, eq_str_of_written (hstr'.trans rfl)]
        rfl

/-- The name of an entry, where it is a string. -/
def entryName (e : Option JsonValue × Option JsonValue) : String :=
  match e.1 with
  | some (.str name) => name
  | _ => ""

theorem map_entry_insertionSort (us : List JsonValue) :
    (us.insertionSort fun u v => codeUnits (nameOf u) ≤ codeUnits (nameOf v)).map entry =
      (us.map entry).insertionSort fun a b => codeUnits (entryName a) ≤ codeUnits (entryName b) :=
  List.map_insertionSort _ _ entry us fun _ _ _ _ => Iff.rfl

theorem named_of_perm {us : List UnreplayablePolicy} {vs : List JsonValue}
    (h : (us.map typedEntry).Perm (vs.map entry)) : Named vs := by
  intro v hv
  obtain ⟨u, -, hu⟩ := List.mem_map.mp (h.mem_iff.mpr (List.mem_map_of_mem hv))
  exact ⟨u.name, (congrArg Prod.fst hu).symm⟩

theorem sortEntries_of_listed {o : Option JsonValue} {us : List JsonValue}
    (h : listed o = some us) (hnamed : Named us) : sortEntries pf o =
      .ok (us.insertionSort fun u v => codeUnits (nameOf u) ≤ codeUnits (nameOf v)) := by
  rw [listed.eq_def] at h
  split at h
  · obtain rfl := Option.some.inj h
    rfl
  · obtain rfl := Option.some.inj h
    rfl
  · obtain rfl := Option.some.inj h
    rw [sortEntries, pf.sortByName_of_named hnamed]
  · cases h

theorem listed_of_sortEntries {o : Option JsonValue} {vs : List JsonValue}
    (h : sortEntries pf o = .ok vs) : ∃ us, listed o = some us ∧ vs.Perm us := by
  rw [sortEntries.eq_def] at h
  split at h
  · obtain rfl := Except.ok.inj h
    exact ⟨[], rfl, .refl _⟩
  · obtain rfl := Except.ok.inj h
    exact ⟨[], rfl, .refl _⟩
  · rename_i us
    split at h
    · rename_i vs' hsort
      obtain rfl := Except.ok.inj h
      exact ⟨us, rfl, pf.perm_of_sortByName hsort⟩
    · cases h
  · cases h

theorem named_entryJson (us : List UnreplayablePolicy) : Named (us.map entryJson) := by
  intro u hu
  obtain ⟨v, -, rfl⟩ := List.mem_map.mp hu
  exact ⟨v.name, rfl⟩

theorem map_canonicalEntry {nums : Numerals} (vs : List JsonValue) :
    (vs.map canonicalEntry).map (written nums) =
      (vs.map entry).map fun e => ofEntry (e.1.map (written nums), e.2.map (written nums)) := by
  rw [List.map_map, List.map_map]
  exact List.map_congr_left fun v _ => written_canonicalEntry v

/-- **Entries are hashed alike with typed ones of different names exactly when they are the same**,
in any order. -/
theorem written_entries_iff {us : List UnreplayablePolicy} (hus : (us.map (·.name)).Nodup)
    {o : Option JsonValue} :
    (∃ vs, sortEntries pf o = .ok vs ∧
      (((us.map entryJson).insertionSort fun u v =>
        codeUnits (nameOf u) ≤ codeUnits (nameOf v)).map canonicalEntry).map (written pf.nums) =
          (vs.map canonicalEntry).map (written pf.nums)) ↔
      ∃ vs, listed o = some vs ∧ (us.map typedEntry).Perm (vs.map entry) := by
  have hsorted : (us.map entryJson).insertionSort (fun u v =>
      codeUnits (nameOf u) ≤ codeUnits (nameOf v)) =
      (us.insertionSort fun u v => codeUnits u.name ≤ codeUnits v.name).map entryJson :=
    (List.map_insertionSort (fun u v : UnreplayablePolicy => codeUnits u.name ≤ codeUnits v.name)
      _ entryJson us fun _ _ _ _ => Iff.rfl).symm
  constructor
  · rintro ⟨vs, hvs, h⟩
    obtain ⟨ws, hws, hperm⟩ := listed_of_sortEntries hvs
    refine ⟨ws, hws, ?_⟩
    rw [hsorted, List.map_map, List.map_map (l := vs)] at h
    have hentries := entry_eq_of_written h
    exact (((List.perm_insertionSort _ us).map typedEntry).symm.trans (.of_eq hentries)).trans
      (hperm.map entry)
  · rintro ⟨vs, hvs, hperm⟩
    refine ⟨_, sortEntries_of_listed hvs (named_of_perm hperm), ?_⟩
    have hnodup : ((us.map typedEntry).map entryName).Nodup := by
      rw [List.map_map]
      exact hus
    have hentries : (us.map entryJson).map entry = us.map typedEntry := by
      rw [List.map_map]
      rfl
    rw [map_canonicalEntry, map_canonicalEntry, map_entry_insertionSort, map_entry_insertionSort,
      hentries, (KeyedSort.insertionSort_eq_iff (eq_of_codeUnits_le hnodup)).mpr hperm]

end Entries

/-! ### What the hash tells apart -/

section Hash

variable {pf : Platform} {A B : PolicySet pf}

/-- The names of a set are different, and its entries are typed, of different names. -/
structure Plain (A : PolicySet pf) : Prop where
  names : (A.policies.map Policy.name).Nodup
  entries : ∃ us : List UnreplayablePolicy, listed A.unreplayable = some (us.map entryJson) ∧
    (us.map (·.name)).Nodup

/-- Every number of a set is written by its numeral or as `null`, and no entry repeats a property.
-/
structure Sound (A : PolicySet pf) : Prop where
  fields : ∀ p ∈ A.policies, ∀ x ∈ p.spec.json.numbers, pf.nums.Writes x
  entries : ∀ o ∈ A.unreplayable, o.Distinct ∧ ∀ x ∈ o.numbers, pf.nums.Writes x

theorem Sound.listed {us : List JsonValue} (hA : Sound A)
    (h : listed A.unreplayable = some us) :
    ∀ u ∈ us, u.Distinct ∧ ∀ x ∈ u.numbers, pf.nums.Writes x := by
  intro u hu
  have hentries := hA.entries
  rw [PolicyArtifact.listed.eq_def] at h
  split at h
  · obtain rfl := Option.some.inj h
    cases hu
  · obtain rfl := Option.some.inj h
    cases hu
  · rename_i vs heq
    obtain rfl := Option.some.inj h
    obtain ⟨hdistinct, hnums⟩ := hentries _ heq
    exact ⟨distinct_arr.mp hdistinct u hu, fun x hx => hnums x (mem_numbers_arr.mpr ⟨u, hu, hx⟩)⟩
  · cases h

theorem distinct_canonicalPolicy (p : Policy pf) : (canonicalPolicy p).Distinct := by
  have hperm := sortKeys_perm p.spec
  have hspec : (JsonValue.obj (sortKeys p.spec)).Distinct := by
    refine distinct_obj.mpr ⟨(hperm.map Prod.fst).nodup_iff.mpr (nodup_copied p.spec), ?_⟩
    intro q hq
    exact p.spec.distinct_of_mem (List.mem_of_mem_filter (hperm.mem_iff.mp hq))
  rw [canonicalPolicy, distinct_obj]
  exact ⟨by simp, by simpa [Distinct] using hspec⟩

theorem mem_numbers_canonicalPolicy {p : Policy pf} {x : ℚ}
    (hx : x ∈ (canonicalPolicy p).numbers) : x ∈ p.spec.json.numbers := by
  rw [canonicalPolicy, mem_numbers_obj] at hx
  obtain ⟨q, hq, hx⟩ := hx
  rcases List.mem_cons.mp hq with rfl | hq
  · cases hx
  · obtain rfl := List.mem_singleton.mp hq
    obtain ⟨f, hf, hx⟩ := mem_numbers_obj.mp hx
    exact mem_numbers_obj.mpr
      ⟨f, List.mem_of_mem_filter ((sortKeys_perm p.spec).mem_iff.mp hf), hx⟩

theorem mem_optional {name : String} {o : Option JsonValue} {p : String × JsonValue}
    (h : p ∈ optional name o) : p.1 = name ∧ o = some p.2 := by
  cases o with
  | none => cases h
  | some j =>
    obtain rfl := List.mem_singleton.mp h
    exact ⟨rfl, rfl⟩

theorem distinct_canonicalEntry {u : JsonValue} (h : u.Distinct) :
    (canonicalEntry u).Distinct := by
  rw [canonicalEntry, distinct_obj]
  constructor
  · cases u.get "name" <;> cases u.get "reason" <;> simp [JsonValue.optional]
  · intro p hp
    rcases List.mem_append.mp hp with hp | hp
    · exact h.get (mem_optional hp).2
    · exact h.get (mem_optional hp).2

theorem mem_numbers_canonicalEntry {u : JsonValue} {x : ℚ}
    (hx : x ∈ (canonicalEntry u).numbers) : x ∈ u.numbers := by
  rw [canonicalEntry, mem_numbers_obj] at hx
  obtain ⟨p, hp, hx⟩ := hx
  rcases List.mem_append.mp hp with hp | hp
  · exact mem_numbers_of_get (mem_optional hp).2 hx
  · exact mem_numbers_of_get (mem_optional hp).2 hx

/-- What is hashed, as a value. -/
def canonOf (policies : List (Policy pf)) (vs : List JsonValue) : JsonValue :=
  .obj [("policies", .arr ((policies.insertionSort fun p q =>
      codeUnits p.name ≤ codeUnits q.name).map canonicalPolicy)),
    ("unreplayable", .arr (vs.map canonicalEntry))]

theorem hashInput_of_sortEntries {o : Option JsonValue} {vs : List JsonValue}
    (policies : List (Policy pf)) (h : sortEntries pf o = .ok vs) :
    hashInput pf policies o = .ok (stringify pf.nums (canonOf policies vs)) := by
  rw [hashInput, canon, h]
  rfl

theorem sortEntries_of_hashInput {policies : List (Policy pf)} {o : Option JsonValue}
    {text : String} (h : hashInput pf policies o = .ok text) : ∃ vs, sortEntries pf o = .ok vs := by
  cases hvs : sortEntries pf o with
  | ok vs => exact ⟨vs, rfl⟩
  | error e =>
    rw [hashInput, canon, hvs] at h
    cases h

theorem written_canonOf (policies : List (Policy pf)) (vs : List JsonValue) :
    written pf.nums (canonOf policies vs) = .obj [("policies", .arr (((policies.insertionSort
      fun p q => codeUnits p.name ≤ codeUnits q.name).map canonicalPolicy).map (written pf.nums))),
    ("unreplayable", .arr ((vs.map canonicalEntry).map (written pf.nums)))] := by
  rw [canonOf, written_obj]
  simp only [List.map_cons, List.map_nil, written_arr]

theorem canonOf_sound (hA : Sound A) {vs : List JsonValue}
    (hvs : ∀ u ∈ vs, u.Distinct ∧ ∀ x ∈ u.numbers, pf.nums.Writes x) :
    (canonOf A.policies vs).Distinct ∧
      ∀ x ∈ (canonOf A.policies vs).numbers, pf.nums.Writes x := by
  have hmem {p : Policy pf} (hp : p ∈ A.policies.insertionSort fun p q =>
      codeUnits p.name ≤ codeUnits q.name) : p ∈ A.policies := (List.mem_insertionSort _).mp hp
  constructor
  · rw [canonOf, distinct_obj]
    refine ⟨by simp, ?_⟩
    rw [List.forall_mem_cons, List.forall_mem_singleton, distinct_arr, distinct_arr,
      List.forall_mem_map, List.forall_mem_map]
    exact ⟨fun p _ => distinct_canonicalPolicy p, fun u hu => distinct_canonicalEntry (hvs u hu).1⟩
  · intro x hx
    rw [canonOf, mem_numbers_obj] at hx
    obtain ⟨q, hq, hx⟩ := hx
    rcases List.mem_cons.mp hq with rfl | hq
    · obtain ⟨j, hj, hx⟩ := mem_numbers_arr.mp hx
      obtain ⟨p, hp, rfl⟩ := List.mem_map.mp hj
      exact hA.fields p (hmem hp) x (mem_numbers_canonicalPolicy hx)
    · obtain rfl := List.mem_singleton.mp hq
      obtain ⟨j, hj, hx⟩ := mem_numbers_arr.mp hx
      obtain ⟨u, hu, rfl⟩ := List.mem_map.mp hj
      exact (hvs u hu).2 x (mem_numbers_canonicalEntry hx)

theorem stringify_canonOf_eq_iff (hA : Sound A) (hB : Sound B) {us vs : List JsonValue}
    (hus : ∀ u ∈ us, u.Distinct ∧ ∀ x ∈ u.numbers, pf.nums.Writes x)
    (hvs : ∀ u ∈ vs, u.Distinct ∧ ∀ x ∈ u.numbers, pf.nums.Writes x)
    (hnames : (A.policies.map Policy.name).Nodup) :
    stringify pf.nums (canonOf A.policies us) = stringify pf.nums (canonOf B.policies vs) ↔
      (A.policies.map view).Perm (B.policies.map view) ∧
      (us.map canonicalEntry).map (written pf.nums) =
        (vs.map canonicalEntry).map (written pf.nums) := by
  obtain ⟨hdA, hnA⟩ := canonOf_sound hA hus
  obtain ⟨hdB, hnB⟩ := canonOf_sound hB hvs
  rw [stringify_eq_iff hdA hdB hnA hnB, written_canonOf, written_canonOf,
    ← written_policies_eq_iff hnames]
  simp

/-- **What the hash tells apart**: two sets have the same hash input exactly when they are the same
as far as the hash sees. -/
theorem hashInput_eq_iff (hA : Plain A) (hsA : Sound A) (hsB : Sound B) :
    hashInput pf A.policies A.unreplayable = hashInput pf B.policies B.unreplayable ↔
      Seen A B := by
  obtain ⟨us, hus, hnodup⟩ := hA.entries
  have hsort : sortEntries pf A.unreplayable = .ok _ :=
    sortEntries_of_listed hus (named_entryJson us)
  have hsound : ∀ u ∈ (us.map entryJson).insertionSort fun u v =>
      codeUnits (nameOf u) ≤ codeUnits (nameOf v),
      u.Distinct ∧ ∀ x ∈ u.numbers, pf.nums.Writes x :=
    fun u hu => hsA.listed hus u ((List.mem_insertionSort _).mp hu)
  have hentries (vs : List JsonValue) : (us.map typedEntry).Perm (vs.map entry) ↔
      ((us.map entryJson).map entry).Perm (vs.map entry) := by
    rw [List.map_map]
    rfl
  rw [hashInput_of_sortEntries _ hsort]
  constructor
  · intro h
    obtain ⟨vs, hvs⟩ := sortEntries_of_hashInput h.symm
    obtain ⟨ws, hws, hperm⟩ := listed_of_sortEntries hvs
    rw [hashInput_of_sortEntries _ hvs, Except.ok.injEq, stringify_canonOf_eq_iff hsA hsB hsound
      (fun u hu => hsB.listed hws u (hperm.mem_iff.mp hu)) hA.names, perm_views_iff hA.names] at h
    obtain ⟨xs, hxs, hsame⟩ := (written_entries_iff hnodup).mp ⟨vs, hvs, h.2⟩
    exact ⟨h.1.1, h.1.2, _, xs, hus, hxs, (hentries xs).mp hsame⟩
  · rintro ⟨hnames, hfields, us', xs, hus', hxs, hsame⟩
    obtain rfl : us.map entryJson = us' := Option.some.inj (hus.symm.trans hus')
    have hwritten := (@written_entries_iff pf us hnodup B.unreplayable).mpr
      ⟨xs, hxs, (hentries xs).mpr hsame⟩
    obtain ⟨vs, hvs, heq⟩ := hwritten
    obtain ⟨ws, hws, hperm⟩ := listed_of_sortEntries hvs
    rw [hashInput_of_sortEntries _ hvs, Except.ok.injEq, stringify_canonOf_eq_iff hsA hsB hsound
      (fun u hu => hsB.listed hws u (hperm.mem_iff.mp hu)) hA.names, perm_views_iff hA.names]
    exact ⟨⟨hnames, hfields⟩, heq⟩

end Hash

/-! ### Which sets are made -/

section Sets

variable {pf : Platform}

theorem addPolicies_eq_ok_iff {seen seen' : List String} {ps : List (Policy pf)} :
    addPolicies seen ps = .ok seen' ↔ (ps.map Policy.name).Nodup ∧
      (∀ name ∈ ps.map Policy.name, name ∉ seen) ∧
      seen' = (ps.map Policy.name).reverse ++ seen := by
  induction ps generalizing seen with
  | nil =>
    rw [addPolicies, Except.ok.injEq]
    simp [eq_comm]
  | cons p ps ih =>
    rw [addPolicies]
    by_cases hp : p.name ∈ seen
    · rw [if_pos hp]
      constructor
      · intro h
        cases h
      · rintro ⟨-, h, -⟩
        exact absurd hp (h p.name List.mem_cons_self)
    · rw [if_neg hp, ih, List.map_cons, List.nodup_cons, List.forall_mem_cons, List.reverse_cons,
        List.append_assoc, List.singleton_append]
      simp only [List.mem_cons, not_or]
      constructor
      · rintro ⟨hnodup, hnew, heq⟩
        exact ⟨⟨fun hmem => (hnew _ hmem).1 rfl, hnodup⟩, ⟨hp, fun name hmem => (hnew name hmem).2⟩,
          heq⟩
      · rintro ⟨⟨hnot, hnodup⟩, ⟨-, hnew⟩, heq⟩
        refine ⟨hnodup, fun name hmem => ⟨?_, hnew name hmem⟩, heq⟩
        rintro rfl
        exact hnot hmem

theorem any_sameElement (seen : List String) (name : String) :
    (seen.map fun name => some (JsonValue.str name)).any (sameElement (some (.str name))) = true ↔
      name ∈ seen := by
  rw [List.any_map, List.any_eq_true]
  constructor
  · rintro ⟨s, hs, h⟩
    obtain rfl : name = s := of_decide_eq_true h
    exact hs
  · exact fun h => ⟨name, h, decide_eq_true rfl⟩

theorem addUnreplayable_eq_ok_iff {seen : List String} {us : List JsonValue} (hus : Named us) :
    addUnreplayable (seen.map fun name => some (.str name)) us = .ok () ↔
      (us.map nameOf).Nodup ∧ ∀ name ∈ us.map nameOf, name ∉ seen := by
  induction us generalizing seen with
  | nil => simp [addUnreplayable]
  | cons u us ih =>
    obtain ⟨name, hname⟩ := hus u List.mem_cons_self
    have hnull : isNull (some u) = false := by
      cases u with
      | null => cases hname
      | _ => rfl
    have hnames : (u :: us).map nameOf = name :: us.map nameOf := by
      rw [List.map_cons, nameOf, hname]
    have hseen : (some (JsonValue.str name) :: seen.map fun name => some (JsonValue.str name)) =
        (name :: seen).map fun name => some (JsonValue.str name) := rfl
    have hrest := @ih (name :: seen) fun v hv => hus v (List.mem_cons_of_mem _ hv)
    rw [addUnreplayable, hnull, hname, if_neg (by simp), hseen, hnames, List.nodup_cons,
      List.forall_mem_cons]
    by_cases hmem : name ∈ seen
    · rw [if_pos ((any_sameElement seen name).mpr hmem)]
      constructor
      · intro h
        cases h
      · rintro ⟨-, h, -⟩
        exact absurd hmem h
    · rw [if_neg (mt (any_sameElement seen name).mp hmem), hrest]
      simp only [List.mem_cons, not_or]
      constructor
      · rintro ⟨hnodup, hnew⟩
        exact ⟨⟨fun h => (hnew _ h).1 rfl, hnodup⟩, hmem, fun s hs => (hnew s hs).2⟩
      · rintro ⟨⟨hnot, hnodup⟩, -, hnew⟩
        refine ⟨hnodup, fun s hs => ⟨?_, hnew s hs⟩⟩
        rintro rfl
        exact hnot hs

theorem elements_of_listed {o : Option JsonValue} {us : List JsonValue}
    (h : listed o = some us) : elements o = .ok us := by
  rw [listed.eq_def] at h
  split at h
  · obtain rfl := Option.some.inj h
    rfl
  · obtain rfl := Option.some.inj h
    rfl
  · obtain rfl := Option.some.inj h
    rfl
  · cases h

theorem eq_of_policySet {ps : List (Policy pf)} {label : Option String} {o : Option JsonValue}
    {A : PolicySet pf} (h : policySet pf ps label o = .ok A) :
    A = ⟨label, ps, o, A.contentHash⟩ := by
  obtain ⟨seen, -, h⟩ := bind_eq_ok.mp h
  obtain ⟨us, -, h⟩ := bind_eq_ok.mp h
  obtain ⟨⟨⟩, -, h⟩ := bind_eq_ok.mp h
  obtain ⟨contentHash, -, h⟩ := bind_eq_ok.mp h
  obtain rfl := Except.ok.inj h
  rfl

/-- **Which sets `policySet` makes**, of entries that have names: those of different names. -/
theorem policySet_eq_ok_iff {ps : List (Policy pf)} {label : Option String}
    {o : Option JsonValue} {us : List JsonValue} (hlisted : listed o = some us) (hus : Named us)
    {A : PolicySet pf} :
    policySet pf ps label o = .ok A ↔ (ps.map Policy.name).Nodup ∧ (us.map nameOf).Nodup ∧
      (∀ name ∈ us.map nameOf, name ∉ ps.map Policy.name) ∧
      hashPolicySet pf ps o = .ok A.contentHash ∧ A = ⟨label, ps, o, A.contentHash⟩ := by
  have hnew (seen : List String) (hseen : seen = (ps.map Policy.name).reverse ++ []) :
      addUnreplayable (seen.map fun name => some (.str name)) us = .ok () ↔
        (us.map nameOf).Nodup ∧ ∀ name ∈ us.map nameOf, name ∉ ps.map Policy.name := by
    rw [addUnreplayable_eq_ok_iff hus, hseen, List.append_nil]
    simp only [List.mem_reverse]
  rw [policySet, elements_of_listed hlisted]
  constructor
  · intro h
    obtain ⟨seen, hseen, h⟩ := bind_eq_ok.mp h
    obtain ⟨us', hus', h⟩ := bind_eq_ok.mp h
    obtain rfl := Except.ok.inj hus'
    obtain ⟨⟨⟩, hadd, h⟩ := bind_eq_ok.mp h
    obtain ⟨contentHash, hhash, h⟩ := bind_eq_ok.mp h
    obtain rfl := Except.ok.inj h
    obtain ⟨hnodup, -, hseen⟩ := addPolicies_eq_ok_iff.mp hseen
    obtain ⟨hentries, hdisjoint⟩ := (hnew seen hseen).mp hadd
    exact ⟨hnodup, hentries, hdisjoint, hhash, rfl⟩
  · rintro ⟨hnodup, hentries, hdisjoint, hhash, heq⟩
    have hseen := addPolicies_eq_ok_iff.mpr ⟨hnodup, fun _ _ => List.not_mem_nil, rfl⟩
    have hadd := (hnew _ rfl).mpr ⟨hentries, hdisjoint⟩
    rw [hseen, hhash]
    simp only [bind, Except.bind, hadd]
    rw [heq]
    rfl

end Sets

/-! ### Which texts are read -/

section Parse

variable {pf : Platform}

/-- The own properties of a spec that was read. -/
def ownFields : JsonValue → List (String × Option JsonValue)
  | .obj ps => ps.map fun p => (p.1, some p.2)
  | _ => []

/-- An element of `policies` lists a policy. -/
def ListsPolicy (j : JsonValue) (p : Policy pf) : Prop :=
  j.get "name" = some (.str p.name) ∧ ∃ spec, j.get "spec" = some spec ∧
    spec.isObject = true ∧ p.spec.fields = ownFields spec

/-- A JSON value lists the policies, the entries and the label of a set. -/
structure Lists (raw : JsonValue) (P : PolicySet pf) : Prop where
  isRecord : isRecord raw = true
  version : isNum (raw.get "v") policySetFormatVersion = true
  policies : ∃ js, raw.get "policies" = some (.arr js) ∧ List.Forall₂ ListsPolicy js P.policies
  label : P.label = string? (raw.get "label")
  unreplayable : P.unreplayable = raw.get "unreplayable"

theorem fields_ofJson {j : JsonValue} (h : j.Distinct) :
    (Spec.ofJson j h).fields = ownFields j := by
  cases j <;> rfl

theorem Spec.eq_of_fields {s t : Spec} (h : s.fields = t.fields) : s = t := by
  cases s
  cases t
  obtain rfl := h
  rfl

theorem Policy.eq_of_spec {p q : Policy pf} (hname : p.name = q.name) (hspec : p.spec = q.spec) :
    p = q := by
  cases p with
  | mk name spec strategy name_ne hbuilt =>
    cases q with
    | mk name' spec' strategy' name_ne' hbuilt' =>
      obtain rfl : name = name' := hname
      obtain rfl : spec = spec' := hspec
      obtain rfl := Except.ok.inj (hbuilt.symm.trans hbuilt')
      rfl

theorem policy_eq_ok_iff {name : String} {spec : Spec} {p : Policy pf} :
    policy pf name spec = .ok p ↔ p.name = name ∧ p.spec = spec := by
  rw [policy]
  split
  · rename_i hname
    constructor
    · intro h
      cases h
    · rintro ⟨rfl, -⟩
      exact absurd hname p.name_ne
  · split
    · rename_i e he
      constructor
      · intro h
        cases h
      · rintro ⟨rfl, rfl⟩
        rw [p.built] at he
        cases he
    · constructor
      · intro h
        obtain rfl := Except.ok.inj h
        exact ⟨rfl, rfl⟩
      · rintro ⟨hname, hspec⟩
        rw [Except.ok.injEq]
        exact Policy.eq_of_spec hname.symm hspec.symm

theorem parsePolicy_eq_ok_iff {j : JsonValue} (h : j.Distinct) {p : Policy pf} :
    parsePolicy pf j h = .ok p ↔ ListsPolicy j p := by
  have hnot (hnone : ∀ name spec, j.get "name" = some (.str name) → j.get "spec" = some spec →
      False) : ¬ ListsPolicy j p := by
    rintro ⟨hname, spec, hspec, -⟩
    exact hnone _ _ hname hspec
  rw [parsePolicy]
  split
  · rename_i hnull
    constructor
    · intro h
      cases h
    · rintro ⟨hname, -⟩
      cases j with
      | null => cases hname
      | _ => cases hnull
  · split
    · rename_i name spec hname hspec
      split
      · rename_i hobject
        rw [policy_eq_ok_iff]
        constructor
        · rintro ⟨rfl, heq⟩
          refine ⟨hname, spec, hspec, hobject, ?_⟩
          rw [heq, fields_ofJson]
        · rintro ⟨hname', spec', hspec', -, hfields⟩
          obtain rfl : spec = spec' := Option.some.inj (hspec.symm.trans hspec')
          constructor
          · have hstr := Option.some.inj (hname'.symm.trans hname)
            exact JsonValue.str.inj hstr
          · exact Spec.eq_of_fields (hfields.trans (fields_ofJson _).symm)
      · rename_i hobject
        constructor
        · intro h
          cases h
        · rintro ⟨-, spec', hspec', hobject', -⟩
          obtain rfl : spec = spec' := Option.some.inj (hspec.symm.trans hspec')
          exact absurd hobject' hobject
    · rename_i hnone
      constructor
      · intro h
        cases h
      · intro h
        exact absurd h (hnot fun name spec hname hspec => hnone name spec hname hspec)

theorem parsePolicies_eq_ok_iff {js : List JsonValue} (h : ∀ j ∈ js, j.Distinct)
    {ps : List (Policy pf)} : parsePolicies pf js h = .ok ps ↔ List.Forall₂ ListsPolicy js ps := by
  induction js generalizing ps with
  | nil =>
    rw [parsePolicies, Except.ok.injEq, List.forall₂_nil_left_iff]
    exact eq_comm
  | cons j js ih =>
    rw [parsePolicies, bind_eq_ok]
    constructor
    · rintro ⟨p, hp, hps⟩
      obtain ⟨ps', hps', heq⟩ := bind_eq_ok.mp hps
      obtain rfl := Except.ok.inj heq
      exact .cons ((parsePolicy_eq_ok_iff _).mp hp) ((ih _).mp hps')
    · intro hall
      cases hall with
      | cons hp hps =>
        exact ⟨_, (parsePolicy_eq_ok_iff _).mpr hp, bind_eq_ok.mpr ⟨_, (ih _).mpr hps, rfl⟩⟩

/-- The hash that a value carries, if any, is that of a set. -/
def Carries (raw : JsonValue) (P : PolicySet pf) : Prop :=
  ∀ serialized, raw.get "contentHash" = some (.str serialized) → serialized = P.contentHash

theorem string?_eq_some {o : Option JsonValue} {s : String} :
    string? o = some s ↔ o = some (.str s) := by
  constructor
  · intro h
    rw [string?.eq_def] at h
    split at h
    · rw [Option.some.inj h]
    · cases h
  · rintro rfl
    rfl

theorem rebuild_eq_ok_iff {raw : JsonValue} (h : raw.Distinct) {P : PolicySet pf} :
    rebuild pf raw h = .ok P ↔ Lists raw P ∧
      policySet pf P.policies P.label P.unreplayable = .ok P ∧ Carries raw P := by
  -- the check of the hash, behind what the set is rebuilt from
  have hcheck (S : PolicySet pf) : (match string? (raw.get "contentHash") with
      | some serialized =>
        if serialized ≠ S.contentHash then
          (throw (ArtifactError.contentHash serialized S.contentHash) :
            Except ArtifactError (PolicySet pf))
        else pure S
      | none => pure S) = .ok P ↔ S = P ∧ Carries raw S := by
    cases hserialized : string? (raw.get "contentHash") with
    | none =>
      refine ⟨fun h => ⟨Except.ok.inj h, fun s hs => ?_⟩, fun h => congrArg Except.ok h.1⟩
      rw [← string?_eq_some, hserialized] at hs
      cases hs
    | some serialized =>
      have hget := string?_eq_some.mp hserialized
      by_cases heq : serialized = S.contentHash
      · simp only [heq, ne_eq, not_true_eq_false, if_false]
        refine ⟨fun h => ⟨Except.ok.inj h, fun s hs => ?_⟩, fun h => congrArg Except.ok h.1⟩
        rw [hget] at hs
        rw [← heq]
        exact (JsonValue.str.inj (Option.some.inj hs)).symm
      · simp only [heq, ne_eq, not_false_eq_true, if_true]
        constructor
        · intro h
          cases h
        · rintro ⟨-, hcarries⟩
          exact absurd (hcarries serialized hget) heq
  rw [rebuild]
  split
  · rename_i hrecord
    constructor
    · intro h
      cases h
    · rintro ⟨hlists, -⟩
      rw [hlists.isRecord] at hrecord
      cases hrecord
  · rename_i hrecord
    split
    · rename_i hversion
      constructor
      · intro h
        cases h
      · rintro ⟨hlists, -⟩
        rw [hlists.version] at hversion
        cases hversion
    · rename_i hversion
      split
      · rename_i js hjs
        constructor
        · intro h
          obtain ⟨policies, hpolicies, h⟩ := bind_eq_ok.mp h
          obtain ⟨rebuilt, hset, h⟩ := bind_eq_ok.mp h
          obtain ⟨rfl, hcarries⟩ := (hcheck rebuilt).mp h
          have hshape : rebuilt = ⟨string? (raw.get "label"), policies, raw.get "unreplayable",
              rebuilt.contentHash⟩ := eq_of_policySet hset
          rw [hshape] at hset hcarries ⊢
          refine ⟨⟨by simpa using hrecord, by simpa using hversion, ⟨js, hjs, ?_⟩, rfl, rfl⟩, hset,
            hcarries⟩
          exact (parsePolicies_eq_ok_iff _).mp hpolicies
        · rintro ⟨hlists, hset, hcarries⟩
          obtain ⟨js', hjs', hall⟩ := hlists.policies
          obtain rfl : js = js' := JsonValue.arr.inj (Option.some.inj (hjs.symm.trans hjs'))
          refine bind_eq_ok.mpr ⟨P.policies, (parsePolicies_eq_ok_iff _).mpr hall, ?_⟩
          rw [← hlists.label, ← hlists.unreplayable]
          exact bind_eq_ok.mpr ⟨P, hset, (hcheck P).mpr ⟨rfl, hcarries⟩⟩
      · rename_i hnone
        constructor
        · intro h
          cases h
        · rintro ⟨hlists, -⟩
          obtain ⟨js, hjs, -⟩ := hlists.policies
          exact absurd hjs (hnone js)

/-- **Which texts are read, and as what**: those that list policies that can be built and entries
that `policySet` makes a set of, and carry no other hash than that of the set. -/
theorem parsePolicySet_eq_ok_iff {text : String} {P : PolicySet pf} :
    parsePolicySet pf text = .ok P ↔ ∃ raw, parsed pf.nums text = some raw ∧ Lists raw P ∧
      policySet pf P.policies P.label P.unreplayable = .ok P ∧ Carries raw P := by
  rw [parsePolicySet]
  split
  · rename_i hnone
    constructor
    · intro h
      cases h
    · rintro ⟨raw, hraw, -⟩
      rw [hnone] at hraw
      cases hraw
  · rename_i raw hraw
    rw [rebuild_eq_ok_iff]
    constructor
    · intro h
      exact ⟨raw, hraw, h⟩
    · rintro ⟨raw', hraw', h⟩
      obtain rfl : raw = raw' := Option.some.inj (hraw.symm.trans hraw')
      exact h

end Parse

/-! ### The codec -/

section Codec

variable {pf : Platform} {A B : PolicySet pf}

/-- How `JSON` writes and reads numbers: one is written and read back, and what a numeral stands for
is written and read back or written as `null`. -/
structure JsonNumbers (nums : Numerals) : Prop where
  one : nums.Faithful policySetFormatVersion
  reads : ∀ cs, isNumeral cs = true → nums.Writes (nums.read cs)

/-- A set that `policySet` has made of policies and of typed entries. The fields of its specs are
JSON values where they are defined: their numbers are finite, and their properties stand in the
order of the language. -/
structure Built (A : PolicySet pf) : Prop where
  made : policySet pf A.policies A.label A.unreplayable = .ok A
  entries : ∃ us : Option (List UnreplayablePolicy),
    A.unreplayable = us.map fun us => .arr (us.map entryJson)
  finite : ∀ p ∈ A.policies, ∀ x ∈ p.spec.json.numbers, pf.nums.Faithful x
  arranged : ∀ p ∈ A.policies, p.spec.json.arrange = p.spec.json

/-- What the codec is for: a set is read back; two sets have the same hash input exactly when they
are the same; and a text that carries the hash of a set and lists another one is refused. -/
structure PolicySetCodec (A B : PolicySet pf) (text : String) : Prop where
  /-- Where every field has a value. -/
  roundTrip : (∀ p ∈ A.policies, ∀ e ∈ p.spec.fields, e.2.isSome = true) →
    parsePolicySet pf (serializePolicySet A) = .ok A
  canonical : hashInput pf A.policies A.unreplayable = hashInput pf B.policies B.unreplayable ↔
    Same A B
  tamper : ∀ raw P, parsed pf.nums text = some raw →
    raw.get "contentHash" = some (.str A.contentHash) → parsePolicySet pf text = .ok P → Same A P

theorem numbers_entryJson (us : List UnreplayablePolicy) {x : ℚ} :
    x ∉ (JsonValue.arr (us.map entryJson)).numbers := by
  intro hx
  obtain ⟨j, hj, hx⟩ := mem_numbers_arr.mp hx
  obtain ⟨u, -, rfl⟩ := List.mem_map.mp hj
  cases hx

theorem distinct_entryJson (us : List UnreplayablePolicy) :
    (JsonValue.arr (us.map entryJson)).Distinct := by
  rw [distinct_arr, List.forall_mem_map]
  intro u _
  simp [entryJson, Distinct, PropertiesDistinct]

theorem Built.listed (hA : Built A) : ∃ us : List UnreplayablePolicy,
    listed A.unreplayable = some (us.map entryJson) := by
  obtain ⟨us, hus⟩ := hA.entries
  rw [hus]
  cases us with
  | none => exact ⟨[], rfl⟩
  | some us => exact ⟨us, rfl⟩

theorem map_nameOf_entryJson (us : List UnreplayablePolicy) :
    (us.map entryJson).map nameOf = us.map (·.name) := by
  rw [List.map_map]
  rfl

theorem Built.plain (hA : Built A) : Plain A := by
  obtain ⟨us, hus⟩ := hA.listed
  obtain ⟨hnames, hentries, -⟩ :=
    (policySet_eq_ok_iff hus (named_entryJson us)).mp hA.made
  rw [map_nameOf_entryJson] at hentries
  exact ⟨hnames, us, hus, hentries⟩

theorem Built.sound (hA : Built A) : Sound A := by
  refine ⟨fun p hp x hx => .inl (hA.finite p hp x hx), fun o ho => ?_⟩
  obtain ⟨us, hus⟩ := hA.entries
  rw [hus] at ho
  obtain ⟨us, -, rfl⟩ := Option.mem_map.mp ho
  exact ⟨distinct_entryJson us, fun x hx => absurd hx (numbers_entryJson us)⟩

/-! #### A set is read back -/

theorem lists_payload (A : PolicySet pf)
    (hdefined : ∀ p ∈ A.policies, ∀ e ∈ p.spec.fields, e.2.isSome = true) :
    Lists (.obj (payload A)) A := by
  have hpolicies : (payload A).lookup "policies" = some (.arr (A.policies.map policyJson)) := by
    rw [payload]
    cases A.label <;> rfl
  have hfields (fields : List (String × Option JsonValue))
      (h : ∀ e ∈ fields, e.2.isSome = true) :
      fields = (fields.filterMap fun e => e.2.map fun j => (e.1, j)).map
        fun p => (p.1, some p.2) := by
    induction fields with
    | nil => rfl
    | cons e fields ih =>
      rw [List.forall_mem_cons] at h
      obtain ⟨name, o⟩ := e
      cases o with
      | none => cases h.1
      | some j => exact congrArg _ (ih h.2)
  refine ⟨rfl, isNum_self _, ⟨_, hpolicies, ?_⟩, ?_, ?_⟩
  · rw [List.forall₂_map_left_iff, List.forall₂_same]
    intro p hp
    exact ⟨rfl, p.spec.json, rfl, rfl, hfields _ (hdefined p hp)⟩
  · rw [get_obj, payload]
    cases A.label <;> cases A.unreplayable <;> rfl
  · rw [get_obj, payload]
    cases A.label <;> cases A.unreplayable <;> rfl

theorem carries_payload (A : PolicySet pf) : Carries (.obj (payload A)) A := by
  intro serialized h
  have hhash : (payload A).lookup "contentHash" = some (.str A.contentHash) := by
    rw [payload]
    cases A.label <;> rfl
  rw [get_obj, hhash] at h
  exact (JsonValue.str.inj (Option.some.inj h)).symm

/-- What stands in a payload, beside the version. -/
theorem mem_payload {A : PolicySet pf} {q : String × JsonValue} (h : q ∈ payload A) :
    q = ("v", .num policySetFormatVersion) ∨ (∃ s, q.2 = .str s) ∨
      q.2 = .arr (A.policies.map policyJson) ∨ A.unreplayable = some q.2 := by
  simp only [payload, List.mem_append, List.mem_cons, List.not_mem_nil, or_false] at h
  rcases h with h | h | (h | h) | h
  · exact .inl h
  · obtain ⟨s, -, hs⟩ := Option.map_eq_some_iff.mp (mem_optional h).2
    exact .inr (.inl ⟨s, hs.symm⟩)
  · exact .inr (.inl ⟨_, congrArg Prod.snd h⟩)
  · exact .inr (.inr (.inl (congrArg Prod.snd h)))
  · exact .inr (.inr (.inr (mem_optional h).2))

theorem Built.finite_payload (hA : Built A) (hnums : JsonNumbers pf.nums) :
    ∀ x ∈ (JsonValue.obj (payload A)).numbers, pf.nums.Faithful x := by
  intro x hx
  obtain ⟨q, hq, hx⟩ := mem_numbers_obj.mp hx
  rcases mem_payload hq with rfl | ⟨s, hs⟩ | hpolicies | hentries
  · obtain rfl := List.mem_singleton.mp hx
    exact hnums.one
  · rw [hs] at hx
    cases hx
  · rw [hpolicies] at hx
    obtain ⟨j, hj, hx⟩ := mem_numbers_arr.mp hx
    obtain ⟨p, hp, rfl⟩ := List.mem_map.mp hj
    obtain ⟨f, hf, hx⟩ := mem_numbers_obj.mp hx
    rcases List.mem_cons.mp hf with rfl | hf
    · cases hx
    · obtain rfl := List.mem_singleton.mp hf
      exact hA.finite p hp x hx
  · obtain ⟨us, hus⟩ := hA.entries
    rw [hus] at hentries
    obtain ⟨us, -, heq⟩ := Option.map_eq_some_iff.mp hentries
    rw [← heq] at hx
    exact absurd hx (numbers_entryJson us)

theorem Built.distinct_payload (hA : Built A) : (JsonValue.obj (payload A)).Distinct := by
  refine distinct_obj.mpr ⟨?_, fun q hq => ?_⟩
  · rw [payload]
    cases A.label <;> cases A.unreplayable <;> simp [JsonValue.optional]
  · rcases mem_payload hq with rfl | ⟨s, hs⟩ | hpolicies | hentries
    · trivial
    · rw [hs]
      trivial
    · rw [hpolicies, distinct_arr, List.forall_mem_map]
      intro p _
      rw [policyJson, distinct_obj]
      exact ⟨by simp, by simpa [Distinct] using p.spec.distinct_json⟩
    · exact (hA.sound.entries _ hentries).1

theorem arrange_entryJson (u : UnreplayablePolicy) : (entryJson u).arrange = entryJson u :=
  arrange_obj (by simp; decide) (by simp [arrange])

theorem Built.arrange_payload (hA : Built A) :
    (JsonValue.obj (payload A)).arrange = .obj (payload A) := by
  refine arrange_obj (fun q hq => ?_) fun q hq => ?_
  · have hname : q.1 ∈ ["v", "label", "contentHash", "policies", "unreplayable"] := by
      simp only [payload, List.mem_append, List.mem_cons, List.not_mem_nil, or_false] at hq
      rcases hq with h | h | (h | h) | h
      · simp [h]
      · simp [(mem_optional h).1]
      · simp [h]
      · simp [h]
      · simp [(mem_optional h).1]
    revert hname
    generalize q.1 = name
    revert name
    decide
  · rcases mem_payload hq with rfl | ⟨s, hs⟩ | hpolicies | hentries
    · rfl
    · rw [hs]
      rfl
    · rw [hpolicies]
      refine arrange_arr (List.forall_mem_map.mpr fun p hp => arrange_obj ?_ ?_)
      · simp only [List.forall_mem_cons]
        decide
      · rw [List.forall_mem_cons, List.forall_mem_singleton]
        exact ⟨rfl, hA.arranged p hp⟩
    · obtain ⟨us, hus⟩ := hA.entries
      rw [hus] at hentries
      obtain ⟨us, -, heq⟩ := Option.map_eq_some_iff.mp hentries
      rw [← heq]
      exact arrange_arr (List.forall_mem_map.mpr fun u _ => arrange_entryJson u)

/-- **A set is read back**, with its content hash. -/
theorem parsePolicySet_serializePolicySet (hA : Built A) (hnums : JsonNumbers pf.nums)
    (hdefined : ∀ p ∈ A.policies, ∀ e ∈ p.spec.fields, e.2.isSome = true) :
    parsePolicySet pf (serializePolicySet A) = .ok A := by
  rw [parsePolicySet_eq_ok_iff]
  refine ⟨.obj (payload A), ?_, lists_payload A hdefined, hA.made, carries_payload A⟩
  exact parsed_stringify hA.distinct_payload (hA.finite_payload hnums) hA.arrange_payload

/-! #### A changed text is refused -/

theorem mem_numbers_of_ownFields {j k : JsonValue} {name : String} {x : ℚ}
    (h : (name, some k) ∈ ownFields j) (hx : x ∈ k.numbers) : x ∈ j.numbers := by
  cases j with
  | obj ps =>
    obtain ⟨p, hp, heq⟩ := List.mem_map.mp h
    obtain rfl := Option.some.inj (Prod.mk.inj heq).2
    exact mem_numbers_obj.mpr ⟨p, hp, hx⟩
  | _ => cases h

theorem ListsPolicy.mem_numbers {j : JsonValue} {p : Policy pf} (h : ListsPolicy j p) {x : ℚ}
    (hx : x ∈ p.spec.json.numbers) : x ∈ j.numbers := by
  obtain ⟨-, spec, hspec, -, hfields⟩ := h
  obtain ⟨q, hq, hx⟩ := mem_numbers_obj.mp hx
  obtain ⟨e, he, hmap⟩ := List.mem_filterMap.mp hq
  obtain ⟨k, hk, rfl⟩ := Option.map_eq_some_iff.mp hmap
  rw [hfields] at he
  obtain ⟨name, o⟩ := e
  obtain rfl : o = some k := hk
  exact mem_numbers_of_get hspec (mem_numbers_of_ownFields he hx)

theorem exists_listsPolicy {js : List JsonValue} {ps : List (Policy pf)}
    (h : List.Forall₂ ListsPolicy js ps) {p : Policy pf} (hp : p ∈ ps) :
    ∃ j ∈ js, ListsPolicy j p := by
  induction h with
  | nil => cases hp
  | cons hj _ ih =>
    rcases List.mem_cons.mp hp with rfl | hp
    · exact ⟨_, List.mem_cons_self, hj⟩
    · obtain ⟨j, hmem, hlists⟩ := ih hp
      exact ⟨j, List.mem_cons_of_mem _ hmem, hlists⟩

/-- What a text lists is written as the hash needs it. -/
theorem Lists.sound (hnums : JsonNumbers pf.nums) {text : String} {raw : JsonValue}
    (hraw : parsed pf.nums text = some raw) {P : PolicySet pf} (h : Lists raw P) : Sound P := by
  have hwrites : ∀ x ∈ raw.numbers, pf.nums.Writes x := by
    intro x hx
    obtain ⟨cs, hnumeral, rfl⟩ := numbers_of_parsed hraw x hx
    exact hnums.reads cs hnumeral
  constructor
  · intro p hp x hx
    obtain ⟨js, hjs, hall⟩ := h.policies
    obtain ⟨j, hj, hlists⟩ := exists_listsPolicy hall hp
    exact hwrites x (mem_numbers_of_get hjs (mem_numbers_arr.mpr ⟨j, hj, hlists.mem_numbers hx⟩))
  · intro o ho
    rw [h.unreplayable] at ho
    exact ⟨(distinct_of_parsed hraw).get ho, fun x hx => hwrites x (mem_numbers_of_get ho hx)⟩

theorem Seen.named (hA : Plain A) (h : Seen A B) : ∃ us : List UnreplayablePolicy, ∃ vs,
    (us.map (·.name)).Nodup ∧ listed A.unreplayable = some (us.map entryJson) ∧
    listed B.unreplayable = some vs ∧ Named vs ∧ (vs.map nameOf).Perm (us.map (·.name)) := by
  obtain ⟨us, hus, hnodup⟩ := hA.entries
  obtain ⟨us', vs, hus', hvs, hperm⟩ := h.entries
  obtain rfl : us.map entryJson = us' := Option.some.inj (hus.symm.trans hus')
  have hentries : (us.map typedEntry).Perm (vs.map entry) := by
    rw [List.map_map] at hperm
    exact hperm
  refine ⟨us, vs, hnodup, hus, hvs, named_of_perm hentries, ?_⟩
  have hmap := hentries.map entryName
  rw [List.map_map, List.map_map] at hmap
  exact hmap.symm

/-- A set that is the same as a built one, as far as the hash sees, is made with its hash. -/
theorem Seen.made (hA : Built A) (hB : Sound B) (h : Seen A B)
    (hhash : B.contentHash = A.contentHash) :
    policySet pf B.policies B.label B.unreplayable = .ok B := by
  obtain ⟨us, vs, hnodup, hus, hvs, hnamed, hnames⟩ := h.named hA.plain
  obtain ⟨hpolicies, -, hdisjoint, hmade, -⟩ :=
    (policySet_eq_ok_iff hus (named_entryJson us)).mp hA.made
  rw [map_nameOf_entryJson] at hdisjoint
  rw [policySet_eq_ok_iff hvs hnamed]
  refine ⟨h.names.nodup_iff.mp hpolicies, hnames.nodup_iff.mpr hnodup, fun name hname => ?_, ?_,
    rfl⟩
  · rw [← h.names.mem_iff]
    exact hdisjoint name (hnames.mem_iff.mp hname)
  · have hinput := (hashInput_eq_iff hA.plain hA.sound hB).mpr h
    rw [hashPolicySet, ← hinput, hhash]
    exact hmade

/-- The content hash of a set that is made is the hash of its hash input. -/
theorem hashInput_of_made (h : policySet pf A.policies A.label A.unreplayable = .ok A) :
    ∃ input, hashInput pf A.policies A.unreplayable = .ok input ∧
      pf.sha256 input = A.contentHash := by
  obtain ⟨seen, -, h⟩ := bind_eq_ok.mp h
  obtain ⟨us, -, h⟩ := bind_eq_ok.mp h
  obtain ⟨⟨⟩, -, h⟩ := bind_eq_ok.mp h
  obtain ⟨contentHash, hhash, h⟩ := bind_eq_ok.mp h
  obtain ⟨input, hinput, hsha⟩ := bind_eq_ok.mp hhash
  refine ⟨input, hinput, ?_⟩
  rw [Except.ok.inj hsha]
  exact congrArg PolicySet.contentHash (Except.ok.inj h)

/-- The codec does what it is for where nothing differs that the hash does not see, and nothing is
the same that it sees differ. -/
theorem policySetCodec_of (hnums : JsonNumbers pf.nums) (hsha : Function.Injective pf.sha256)
    (hA : Built A) (hB : Built B) {text : String} (hhidden : ¬ Hidden A B)
    (hrearranged : ¬ Rearranged A B)
    (htext : ∀ raw P, parsed pf.nums text = some raw →
      raw.get "contentHash" = some (.str A.contentHash) → Lists raw P → ¬ Hidden A P) :
    PolicySetCodec A B text := by
  refine ⟨parsePolicySet_serializePolicySet hA hnums, ?_, ?_⟩
  · rw [hashInput_eq_iff hA.plain hA.sound hB.sound]
    constructor
    · intro hseen
      exact Classical.byContradiction fun hnot => hhidden ⟨hseen, hnot⟩
    · intro hsame
      exact Classical.byContradiction fun hnot => hrearranged ⟨hsame, hnot⟩
  · intro raw P hraw hcarried hparse
    obtain ⟨raw', hraw', hlists, hmade, hcarries⟩ := parsePolicySet_eq_ok_iff.mp hparse
    obtain rfl : raw = raw' := Option.some.inj (hraw.symm.trans hraw')
    obtain ⟨a, ha, hsa⟩ := hashInput_of_made hA.made
    obtain ⟨b, hb, hsb⟩ := hashInput_of_made hmade
    have hab : a = b := hsha (hsa.trans ((hcarries _ hcarried).trans hsb.symm))
    have hseen : Seen A P := by
      rw [← hashInput_eq_iff hA.plain hA.sound (hlists.sound hnums hraw), ha, hb, hab]
    exact Classical.byContradiction fun hnot => htext raw P hraw hcarried hlists ⟨hseen, hnot⟩

/-! #### Specs as they are written by hand -/

/-- No spec has a field `__proto__`. -/
def NoProto (A : PolicySet pf) : Prop := ∀ p ∈ A.policies, p.spec.get "__proto__" = none

/-- No field holds an array or an object. -/
def Flat (A : PolicySet pf) : Prop :=
  ∀ p ∈ A.policies, ∀ field, ∀ j ∈ p.spec.get field, j.isObject = false

theorem exists_of_field {name field : String} {j : JsonValue} (h : A.field name field = some j) :
    ∃ p ∈ A.policies, p.spec.get field = some j := by
  rw [PolicySet.field, Option.bind_eq_some_iff] at h
  obtain ⟨p, hp, hj⟩ := h
  exact ⟨p, List.mem_of_find?_eq_some hp, hj⟩

theorem field_proto (hA : NoProto A) (name : String) : A.field name "__proto__" = none := by
  cases h : A.field name "__proto__" with
  | none => rfl
  | some j =>
    obtain ⟨p, hp, hj⟩ := exists_of_field h
    rw [hA p hp] at hj
    cases hj

/-- Fields with finite numbers are written as they are. -/
theorem written_field (hA : ∀ p ∈ A.policies, ∀ x ∈ p.spec.json.numbers, pf.nums.Faithful x)
    (name field : String) : (A.field name field).map (written pf.nums) = A.field name field := by
  cases h : A.field name field with
  | none => rfl
  | some j =>
    obtain ⟨p, hp, hj⟩ := exists_of_field h
    have hmem : (field, j) ∈ p.spec.defined := mem_of_lookup hj
    rw [Option.map_some, written_eq_self j fun x hx =>
      hA p hp x (mem_numbers_obj.mpr ⟨_, hmem, hx⟩)]

theorem rel_sameValue_self (o : Option JsonValue) : Option.Rel SameValue o o := by
  cases o with
  | none => exact .none
  | some j => exact .some rfl

/-- Without `__proto__` and with finite numbers the hash sees everything. -/
theorem not_hidden (hA : NoProto A) (hB : NoProto B)
    (hfA : ∀ p ∈ A.policies, ∀ x ∈ p.spec.json.numbers, pf.nums.Faithful x)
    (hfB : ∀ p ∈ B.policies, ∀ x ∈ p.spec.json.numbers, pf.nums.Faithful x) : ¬ Hidden A B := by
  rintro ⟨hseen, hnot⟩
  refine hnot ⟨hseen.names, fun name field => ?_, hseen.entries⟩
  by_cases hfield : field = "__proto__"
  · rw [hfield, field_proto hA, field_proto hB]
    exact .none
  · have heq := hseen.fields name field hfield
    rw [written_field hfA, written_field hfB] at heq
    rw [heq]
    exact rel_sameValue_self _

theorem eq_of_sameValue {j k : JsonValue} (hj : j.isObject = false) (hk : k.isObject = false)
    (h : SameValue j k) : j = k := by
  have hnormal {i : JsonValue} (hi : i.isObject = false) : normal i = i := by
    cases i with
    | arr js => cases hi
    | obj ps => cases hi
    | _ => rfl
  rwa [SameValue, hnormal hj, hnormal hk] at h

/-- Without arrays and objects below a field there is no order to tell apart. -/
theorem not_rearranged (hA : Flat A) (hB : Flat B) : ¬ Rearranged A B := by
  rintro ⟨hsame, hnot⟩
  refine hnot ⟨hsame.names, fun name field _ => ?_, hsame.entries⟩
  have hrel := hsame.fields name field
  cases ha : A.field name field with
  | none =>
    rw [ha] at hrel
    cases hb : B.field name field with
    | none => rfl
    | some k =>
      rw [hb] at hrel
      cases hrel
  | some j =>
    rw [ha] at hrel
    cases hb : B.field name field with
    | none =>
      rw [hb] at hrel
      cases hrel
    | some k =>
      rw [hb] at hrel
      obtain ⟨p, hp, hj⟩ := exists_of_field ha
      obtain ⟨q, hq, hk⟩ := exists_of_field hb
      cases hrel with
      | some h => rw [eq_of_sameValue (hA p hp field j hj) (hB q hq field k hk) h]

/-- **The codec does what it is for** on specs that have plain values and no `__proto__`, and on
texts that list specs without `__proto__` and with finite numbers. -/
theorem policySetCodec_of_flat (hnums : JsonNumbers pf.nums) (hsha : Function.Injective pf.sha256)
    (hA : Built A) (hB : Built B) (hpA : NoProto A) (hpB : NoProto B) (hfA : Flat A) (hfB : Flat B)
    {text : String} (htext : ∀ raw (P : PolicySet pf), parsed pf.nums text = some raw →
      Lists raw P → NoProto P ∧ ∀ p ∈ P.policies, ∀ x ∈ p.spec.json.numbers, pf.nums.Faithful x) :
    PolicySetCodec A B text := by
  refine policySetCodec_of hnums hsha hA hB (not_hidden hpA hpB hA.finite hB.finite)
    (not_rearranged hfA hfB) fun raw P hraw _ hlists => ?_
  obtain ⟨hpP, hfinite⟩ := htext raw P hraw hlists
  exact not_hidden hpA hpP hA.finite hfinite

/-! #### When it does -/

/-- **When the codec does what it is for**: when the two sets do not differ where the hash does not
look, and are not the same with the properties of some value in another order, and when no set that
the text lists with the hash of the first differs from it where the hash does not look. -/
theorem policySetCodec_iff (hnums : JsonNumbers pf.nums) (hsha : Function.Injective pf.sha256)
    (hA : Built A) (hB : Built B) (text : String) :
    PolicySetCodec A B text ↔ ¬ Hidden A B ∧ ¬ Rearranged A B ∧
      ∀ raw P, parsed pf.nums text = some raw →
        raw.get "contentHash" = some (.str A.contentHash) → Lists raw P → ¬ Hidden A P := by
  have hinput := hashInput_eq_iff hA.plain hA.sound hB.sound
  constructor
  · intro h
    refine ⟨?_, ?_, ?_⟩
    · rintro ⟨hseen, hnot⟩
      exact hnot (h.canonical.mp (hinput.mpr hseen))
    · rintro ⟨hsame, hnot⟩
      exact hnot (hinput.mp (h.canonical.mpr hsame))
    · rintro raw P hraw hcarried hlists ⟨hseen, hnot⟩
      -- the same set, with the hash that the text carries
      let Q : PolicySet pf := { P with contentHash := A.contentHash }
      have hQ : Lists raw Q :=
        ⟨hlists.isRecord, hlists.version, hlists.policies, hlists.label, hlists.unreplayable⟩
      have hseenQ : Seen A Q := ⟨hseen.names, hseen.fields, hseen.entries⟩
      have hcarries : Carries raw Q := by
        intro serialized hserialized
        rw [hcarried] at hserialized
        exact (JsonValue.str.inj (Option.some.inj hserialized)).symm
      have hparse : parsePolicySet pf text = .ok Q := parsePolicySet_eq_ok_iff.mpr
        ⟨raw, hraw, hQ, hseenQ.made hA (hQ.sound hnums hraw) rfl, hcarries⟩
      have hsame := h.tamper raw Q hraw hcarried hparse
      exact hnot ⟨hsame.names, hsame.fields, hsame.entries⟩
  · rintro ⟨hhidden, hrearranged, htext⟩
    exact policySetCodec_of hnums hsha hA hB hhidden hrearranged htext

end Codec

/-! ### Runs -/

/-- The digits of a number, most significant first. -/
theorem ofDigits_toDigits (n : ℕ) : ofDigits (Nat.toDigits 10 n) = n := by
  have h : ∀ (ds : List Char) (a : ℕ),
      ds.foldl (fun n d => n * 10 + (d.toNat - 48)) a = Nat.ofDigitChars 10 ds a := by
    intro ds
    induction ds with
    | nil => exact fun a => rfl
    | cons d ds ih =>
      intro a
      rw [List.foldl_cons, ih, Nat.ofDigitChars_cons, Nat.mul_comm]
      rfl
  rw [ofDigits, h, Nat.ofDigitChars_ten_toDigits]

theorem toDigits_head (n : ℕ) (hn : 0 < n) :
    ∃ d ds, Nat.toDigits 10 n = d :: ds ∧ d ≠ '0' := by
  induction n using Nat.strong_induction_on with
  | _ n ih =>
    by_cases h : n < 10
    · refine ⟨n.digitChar, [], Nat.toDigits_of_lt_base h, ?_⟩
      rw [ne_eq, Nat.digitChar_eq_zero]
      omega
    · obtain ⟨d, ds, hds, hd⟩ := ih (n / 10) (by omega) (by omega)
      refine ⟨d, ds ++ [(n % 10).digitChar], ?_, hd⟩
      rw [Nat.toDigits_of_base_le (by decide) (by omega), hds, List.cons_append]

theorem isMagnitude_toDigits (n : ℕ) : isMagnitude (Nat.toDigits 10 n) = true := by
  rcases Nat.eq_zero_or_pos n with rfl | hn
  · rfl
  · obtain ⟨d, ds, hds, hd⟩ := toDigits_head n hn
    have hall : ∀ c ∈ d :: ds, c.isDigit = true := fun c hc =>
      Nat.isDigit_of_mem_toDigits (b := 10) (n := n) (by decide) (by decide) (hds ▸ hc)
    rw [List.forall_mem_cons] at hall
    have hdrop : ds.dropWhile Char.isDigit = [] := List.dropWhile_eq_nil_iff.mpr hall.2
    rw [hds, isMagnitude.eq_def]
    split
    · rename_i heq
      exact absurd (List.cons.inj heq).1 hd
    · rename_i heq
      obtain ⟨rfl, rfl⟩ := List.cons.inj heq
      rw [hall.1, hdrop]
      rfl
    · rename_i heq
      cases heq

/-- Whole numbers are written by numerals that stand for them. -/
theorem faithful_wholeNumerals (z : ℤ) : Replay.wholeNumerals.Faithful z := by
  have hmagnitude := isMagnitude_toDigits z.natAbs
  have hread := ofDigits_toDigits z.natAbs
  have hprint : Replay.wholeNumerals.print z =
      (if z < 0 then ['-'] else []) ++ Nat.toDigits 10 z.natAbs := by
    simp [Replay.wholeNumerals]
  rw [Numerals.Faithful, hprint]
  by_cases hz : z < 0
  · rw [if_pos hz, List.singleton_append]
    refine ⟨hmagnitude, ?_⟩
    show -((ofDigits (Nat.toDigits 10 z.natAbs) : ℕ) : ℚ) = z
    have habs : (z.natAbs : ℤ) = -z := Int.ofNat_natAbs_of_nonpos hz.le
    rw [hread, ← Int.cast_natCast, habs]
    simp
  · rw [if_neg hz, List.nil_append]
    have habs : (z.natAbs : ℤ) = z := Int.natAbs_of_nonneg (not_lt.mp hz)
    cases hds : Nat.toDigits 10 z.natAbs with
    | nil => exact absurd hds Nat.toDigits_ne_nil
    | cons d ds =>
      have hd : d ≠ '-' := by
        rintro rfl
        have hdigit := Nat.isDigit_of_mem_toDigits (b := 10) (n := z.natAbs) (by decide) (by decide)
          (hds ▸ List.mem_cons_self)
        exact absurd hdigit (by decide)
      rw [hds] at hmagnitude hread
      constructor
      · rw [isNumeral.eq_def]
        split
        · rename_i heq
          exact absurd (List.cons.inj heq).1 hd
        · exact hmagnitude
      · have hcast : ((ofDigits (d :: ds) : ℕ) : ℚ) = z := by
          rw [hread, ← Int.cast_natCast, habs]
        rw [← hcast, Replay.wholeNumerals]
        dsimp only
        split
        · rename_i heq
          exact absurd (List.cons.inj heq).1 hd
        · rfl

theorem jsonNumbers_wholeNumerals : JsonNumbers Replay.wholeNumerals where
  one := faithful_wholeNumerals 1
  reads cs _ := by
    refine .inl ?_
    rw [Replay.wholeNumerals]
    dsimp only
    split
    · rename_i ds _
      exact_mod_cast faithful_wholeNumerals (-(ofDigits ds : ℕ))
    · exact_mod_cast faithful_wholeNumerals (ofDigits cs : ℕ)

/-- A platform that hashes a text to itself, and leaves entries that have no names in front. -/
def plainPlatform : Platform where
  lib := Replay.wholeLibrary
  sha256 text := text
  sortByName us := some (us.insertionSort fun u v => codeUnits (nameOf u) ≤ codeUnits (nameOf v))
  perm_of_sortByName h := by
    obtain rfl := Option.some.inj h
    exact List.perm_insertionSort _ _
  sortByName_of_named _ := rfl

/-- One unit a second, with a field `__proto__`. -/
def protoSpec (x : ℚ) : Spec where
  fields := [("strategy", some (.str "fixedWindow")), ("limit", some (.num 1)),
    ("windowMs", some (.num 1000)), ("__proto__", some (.num x))]
  nodup := by simp
  distinct := by simp [Distinct]

/-- The policy of that spec. -/
def protoPolicy (z : ℤ) : Policy plainPlatform where
  name := "api"
  spec := protoSpec z
  strategy := Replay.oncePerSecondWindow
  name_ne := by decide
  built := by
    have hreadable : (protoSpec z).readable plainPlatform.nums = .obj
        [("strategy", .str "fixedWindow"), ("limit", .num 1), ("windowMs", .num 1000),
          ("__proto__", .num z)] := by
      have h1 := faithful_wholeNumerals 1
      have h1000 := faithful_wholeNumerals 1000
      have hz := faithful_wholeNumerals z
      simp only [Int.cast_one, Int.cast_ofNat] at h1 h1000
      simp [protoSpec, Spec.readable, Spec.defined, readField, plainPlatform, Replay.wholeLibrary,
        h1, h1000, hz]
    rw [hreadable]
    rfl

/-- The set of that policy. -/
def protoSet (z : ℤ) : PolicySet plainPlatform :=
  ⟨none, [protoPolicy z], none, stringify plainPlatform.nums (canonOf [protoPolicy z] [])⟩

theorem hashInput_protoSet (z : ℤ) :
    hashInput plainPlatform (protoSet z).policies (protoSet z).unreplayable =
      .ok (stringify plainPlatform.nums (canonOf [protoPolicy z] [])) :=
  hashInput_of_sortEntries _ rfl

theorem built_protoSet (z : ℤ) : Built (protoSet z) where
  made := by
    have hnamed : Named [] := by simp [Named]
    refine (policySet_eq_ok_iff rfl hnamed).mpr
      ⟨by simp [protoSet], List.nodup_nil, by simp, ?_, rfl⟩
    rw [hashPolicySet, hashInput_protoSet]
    rfl
  entries := ⟨none, rfl⟩
  finite := by
    intro p hp x hx
    obtain rfl := List.mem_singleton.mp hp
    have hmem : x ∈ [(1 : ℚ), 1000, z] := by
      simpa [protoPolicy, protoSpec, Spec.json, Spec.defined, numbers, propertyNumbers] using hx
    simp only [List.mem_cons, List.not_mem_nil, or_false] at hmem
    rcases hmem with rfl | rfl | rfl
    · exact_mod_cast faithful_wholeNumerals 1
    · exact_mod_cast faithful_wholeNumerals 1000
    · exact faithful_wholeNumerals z
  arranged := by
    intro p hp
    obtain rfl := List.mem_singleton.mp hp
    refine arrange_obj ?_ ?_
    · show ∀ p ∈ [("strategy", JsonValue.str "fixedWindow"), ("limit", .num 1),
        ("windowMs", .num 1000), ("__proto__", .num z)], (arrayIndex p.1).isSome = false
      simp only [List.forall_mem_cons]
      exact ⟨rfl, rfl, rfl, rfl, by simp⟩
    · simp [protoPolicy, protoSpec, Spec.defined, arrange]

/-- The hash does not see the field. -/
theorem seen_protoSet (z w : ℤ) : Seen (protoSet z) (protoSet w) := by
  refine ⟨.refl _, fun name field hfield => ?_, [], [], rfl, rfl, .refl _⟩
  have hpolicy (z : ℤ) : (protoSet z).policy? name =
      if "api" = name then some (protoPolicy z) else none := by
    have hfind : (protoSet z).policy? name =
        if decide ((protoPolicy z).name = name) = true then some (protoPolicy z) else none :=
      List.find?_singleton ..
    rw [hfind]
    exact if_congr decide_eq_true_iff rfl rfl
  have hget (z : ℤ) : (protoPolicy z).spec.get field =
      [("strategy", .str "fixedWindow"), ("limit", .num 1), ("windowMs", .num 1000)].lookup
        field := by
    have hbeq : (field == "__proto__") = false := by simpa using hfield
    have hdefined : (protoPolicy z).spec.defined = [("strategy", .str "fixedWindow"),
      ("limit", .num 1), ("windowMs", .num 1000)] ++ [("__proto__", .num z)] := rfl
    have hnone : [("__proto__", JsonValue.num z)].lookup field = none := by
      rw [List.lookup_cons, hbeq]
      rfl
    rw [Spec.get, hdefined, List.lookup_append, hnone, Option.or_none]
  rw [PolicySet.field, PolicySet.field, hpolicy, hpolicy]
  split
  · rw [Option.bind_some, Option.bind_some, hget, hget]
  · rfl

/-- A set without policies. -/
def emptySet : PolicySet plainPlatform := ⟨none, [], none,
  stringify plainPlatform.nums (canonOf ([] : List (Policy plainPlatform)) [])⟩

theorem built_emptySet : Built emptySet where
  made := by
    have hnamed : Named [] := by simp [Named]
    refine (policySet_eq_ok_iff rfl hnamed).mpr
      ⟨by simp [emptySet], List.nodup_nil, by simp, ?_, rfl⟩
    have hinput : hashInput plainPlatform emptySet.policies emptySet.unreplayable =
        .ok (stringify plainPlatform.nums (canonOf ([] : List (Policy plainPlatform)) [])) :=
      hashInput_of_sortEntries _ rfl
    rw [hashPolicySet, hinput]
    rfl
  entries := ⟨none, rfl⟩
  finite := by simp [emptySet]
  arranged := by simp [emptySet]

/-- The policies that a JSON value lists. -/
theorem Lists.policies_eq {pf : Platform} {raw : JsonValue} {P Q : PolicySet pf} (hP : Lists raw P)
    (hQ : Lists raw Q) : P.policies = Q.policies := by
  have hunique : Relator.RightUnique (ListsPolicy : JsonValue → Policy pf → Prop) := by
    rintro j p q ⟨hp, spec, hspec, -, hfields⟩ ⟨hq, spec', hspec', -, hfields'⟩
    rw [hp] at hq
    rw [hspec] at hspec'
    obtain rfl := Option.some.inj hspec'
    exact Policy.eq_of_spec (JsonValue.str.inj (Option.some.inj hq))
      (Spec.eq_of_fields (hfields.trans hfields'.symm))
  obtain ⟨js, hjs, hall⟩ := hP.policies
  obtain ⟨js', hjs', hall'⟩ := hQ.policies
  rw [hjs] at hjs'
  obtain rfl := JsonValue.arr.inj (Option.some.inj hjs')
  exact hunique.forall₂ hall hall'

/-- The codec does what it is for on two sets, and on the text of the first, which carries its
hash. -/
theorem policySetCodec_protoSet :
    PolicySetCodec (protoSet 1) emptySet (serializePolicySet (protoSet 1)) := by
  have hnames : ¬ ((protoSet 1).policies.map Policy.name).Perm
      (emptySet.policies.map Policy.name) := fun h => absurd h.length_eq (by decide)
  have hdefined : ∀ p ∈ (protoSet 1).policies, ∀ e ∈ p.spec.fields, e.2.isSome = true := by
    intro p hp
    obtain rfl := List.mem_singleton.mp hp
    simp [protoPolicy, protoSpec]
  have hparsed : parsed plainPlatform.nums (serializePolicySet (protoSet 1))
      = some (.obj (payload (protoSet 1))) :=
    parsed_stringify (built_protoSet 1).distinct_payload
      ((built_protoSet 1).finite_payload jsonNumbers_wholeNumerals)
      (built_protoSet 1).arrange_payload
  refine (policySetCodec_iff jsonNumbers_wholeNumerals Function.injective_id (built_protoSet 1)
    built_emptySet _).mpr ⟨fun h => hnames h.1.names, fun h => hnames h.1.names, ?_⟩
  rintro raw P hraw - hlists ⟨-, hnot⟩
  rw [hparsed] at hraw
  obtain rfl := Option.some.inj hraw
  have hpolicies := hlists.policies_eq (lists_payload (protoSet 1) hdefined)
  have hentries : P.unreplayable = none := hlists.unreplayable
  refine hnot ⟨?_, fun name field => ?_, [], [], rfl, ?_, .refl _⟩
  · rw [hpolicies]
  · rw [PolicySet.field, PolicySet.field, PolicySet.policy?, PolicySet.policy?, hpolicies]
    exact rel_sameValue_self _
  · rw [hentries]
    rfl

/-- Two sets that differ in a field `__proto__` have the same hash input. -/
theorem not_policySetCodec_protoSet : ¬ ∀ (pf : Platform) (A B : PolicySet pf) (text : String),
    JsonNumbers pf.nums → Function.Injective pf.sha256 → Built A → Built B →
      PolicySetCodec A B text := by
  intro h
  have hcodec := h plainPlatform (protoSet 1) (protoSet 2) "" jsonNumbers_wholeNumerals
    Function.injective_id (built_protoSet 1) (built_protoSet 2)
  have hinput := (hashInput_eq_iff (built_protoSet 1).plain (built_protoSet 1).sound
    (built_protoSet 2).sound).mpr (seen_protoSet 1 2)
  have hfield := (hcodec.canonical.mp hinput).fields "api" "__proto__"
  have hvalue (z : ℤ) : (protoSet z).field "api" "__proto__" = some (.num z) := rfl
  rw [hvalue, hvalue] at hfield
  cases hfield with
  | some hsame =>
    have hnum := JsonValue.num.inj hsame
    norm_num at hnum

end ThrottleKit.PolicyArtifact
