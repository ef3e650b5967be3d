import Mathlib.Data.List.Nodup
import ThrottleKit.Config.Built

/-!
# Candidates of a replay

A candidate is a list of deltas against the spec a trace was recorded under. Resolving it writes
each delta into a copy of the spec, one write to a field at most, and then refuses the deltas that
would not apply: a window that another field takes precedence over, and a field that the strategy of
the resolved spec is not listed to read.

## What is left out

A field that is undefined is as one that is missing, for everything that reads a spec, and the order
of its fields makes no difference. A refusal has the field that its message names, and not the text
of the values. A strategy that is not a string is none of those with a list.

## Main definitions

* `CandidateOp`, `Candidate` — the deltas
* `resolveCandidate` — the resolved spec
* `Candidate.paths`, `Candidate.valueOf` — what a candidate writes, and what a field has then

## Main results

* `resolveCandidate_spec` — what is accepted, and what the resolved spec has
-/

namespace ThrottleKit.Candidates

open JsonValue BuildStrategy

/-- The fields of a spec. -/
def specPaths : List String :=
  ["strategy", "limit", "period", "burst", "capacity", "refillPerSec", "windowMs", "buckets",
    "resetCadence", "offsetMinutes", "weekStartsOn", "anchor", "periodMs", "prefix"]

/-- `CONSUMED_BY_STRATEGY[strategy]`. -/
def consumedByStrategy : String → Option (List String)
  | "gcra" => some ["strategy", "prefix", "limit", "period", "periodMs", "windowMs", "burst"]
  | "tokenBucket" => some ["strategy", "prefix", "capacity", "refillPerSec"]
  | "fixedWindow" => some ["strategy", "prefix", "limit", "period", "windowMs"]
  | "slidingWindow" => some ["strategy", "prefix", "limit", "period", "windowMs", "buckets"]
  | "slidingWindowLog" => some ["strategy", "prefix", "limit", "period", "windowMs"]
  | "quota" => some ["strategy", "prefix", "limit", "period", "periodMs", "resetCadence", "anchor",
      "offsetMinutes", "weekStartsOn", "buckets"]
  | _ => none

/-- One delta against the recorded spec. -/
inductive CandidateOp
  /-- Override a field; a value may be undefined. -/
  | set (path : String) (value : Option JsonValue)
  /-- Multiply a field of the recorded spec; a factor that is not finite is `none`. -/
  | scale (path : String) (factor : Option ℚ)
  /-- Change the strategy, and supply fields. -/
  | swap (strategy : Option JsonValue) (fields : List (String × Option JsonValue))

/-- A named bundle of deltas. -/
structure Candidate where
  name : String
  ops : List CandidateOp

/-- How a candidate is refused. -/
inductive CandidateError
  /-- `unknown field`. -/
  | unknownField (path : String)
  /-- `more than one op targets` a field. -/
  | moreThanOne (path : String)
  /-- `scale(path) needs a finite numeric base value`. -/
  | scaleBase (path : String)
  /-- `scale(path) factor must be finite`. -/
  | scaleFactor (path : String)
  /-- `targets windowMs/periodMs but the spec sets period`. -/
  | periodTakesPrecedence
  /-- `targets windowMs but the gcra spec sets periodMs`. -/
  | periodMsTakesPrecedence
  /-- `targets a field but the resolved strategy never reads it`. -/
  | neverReads (path strategy : String)
deriving DecidableEq

/-- Whether the strategy is still that of the recorded spec. -/
inductive ComparabilityClass
  | comparable
  | crossStrategy
deriving DecidableEq

/-- A candidate resolved into a concrete spec. -/
structure ResolvedCandidate where
  spec : JsonValue
  comparability : ComparabilityClass

/-! ### The code -/

/-- The own properties of a value that is spread. -/
def properties : JsonValue → List (String × JsonValue)
  | .obj properties => properties
  | _ => []

/-- `spec` with `value` at `path`. -/
def write (spec : JsonValue) (path : String) (value : Option JsonValue) : JsonValue :=
  .obj (optional path value ++ (properties spec).filter (·.1 ≠ path))

/-- What has been written so far. -/
structure Working where
  spec : JsonValue
  written : List String

/-- `assertKnownPath(name, path)`. -/
def assertKnownPath (path : String) : Except CandidateError Unit :=
  if path ∈ specPaths then .ok () else .error (.unknownField path)

/-- `claim(path)`. -/
def claim (written : List String) (path : String) : Except CandidateError (List String) :=
  if path ∈ written then .error (.moreThanOne path) else .ok (written ++ [path])

/-- A field is written. -/
def Working.put (w : Working) (written : List String) (path : String) (value : Option JsonValue) :
    Working :=
  ⟨write w.spec path value, written⟩

/-- The loop of a swap over its fields. -/
def applyFields : Working → List (String × Option JsonValue) → Except CandidateError Working
  | w, [] => .ok w
  | w, (path, value) :: fields => do
    assertKnownPath path
    let written ← claim w.written path
    applyFields (w.put written path value) fields

/-- One delta. -/
def applyOp (base : JsonValue) (w : Working) : CandidateOp → Except CandidateError Working
  | .set path value => do
    assertKnownPath path
    let written ← claim w.written path
    return w.put written path value
  | .scale path factor => do
    assertKnownPath path
    let written ← claim w.written path
    match base.get path, factor with
    | some (.num x), some factor => return w.put written path (some (.num (x * factor)))
    | some (.num _), none => throw (.scaleFactor path)
    | _, _ => throw (.scaleBase path)
  | .swap strategy fields => do
    let written ← claim w.written "strategy"
    applyFields (w.put written "strategy" strategy) fields

/-- The loop over the deltas. -/
def applyOps (base : JsonValue) : Working → List CandidateOp → Except CandidateError Working
  | w, [] => .ok w
  | w, op :: ops => do applyOps base (← applyOp base w op) ops

/-- A `period` takes precedence over the fields in milliseconds. -/
def refusePeriod (w : Working) : Except CandidateError Unit :=
  if ("windowMs" ∈ w.written ∨ "periodMs" ∈ w.written) ∧ (w.spec.get "period").isSome then
    .error .periodTakesPrecedence
  else .ok ()

/-- For `gcra`, `periodMs` takes precedence over `windowMs`. -/
def refusePeriodMs (w : Working) : Except CandidateError Unit :=
  if "windowMs" ∈ w.written ∧ isStr (w.spec.get "strategy") "gcra" = true ∧
      (w.spec.get "periodMs").isSome then
    .error .periodMsTakesPrecedence
  else .ok ()

/-- A written field that the resolved strategy is not listed to read is refused. -/
def refuseInert (strategy : Option JsonValue) (written : List String) :
    Except CandidateError Unit :=
  match strategy with
  | some (.str strategy) =>
    match consumedByStrategy strategy with
    | some consumed =>
      match written.find? (· ∉ consumed) with
      | some path => .error (.neverReads path strategy)
      | none => .ok ()
    | none => .ok ()
  | _ => .ok ()

/-- `a === b`, of strategies. -/
def sameStrategy : Option JsonValue → Option JsonValue → Bool
  | some (.str s), some (.str t) => s = t
  | none, none => true
  | _, _ => false

/-- `resolveCandidate(trace, cand)`, with the recorded spec `base`. -/
def resolveCandidate (base : JsonValue) (cand : Candidate) :
    Except CandidateError ResolvedCandidate := do
  let w ← applyOps base ⟨.obj (properties base), []⟩ cand.ops
  refusePeriod w
  refusePeriodMs w
  refuseInert (w.spec.get "strategy") w.written
  return ⟨w.spec, if sameStrategy (w.spec.get "strategy") (base.get "strategy") then .comparable
    else .crossStrategy⟩

/-! ### What a candidate writes -/

/-- The fields a delta writes, with their values. -/
def CandidateOp.writes (base : JsonValue) : CandidateOp → List (String × Option JsonValue)
  | .set path value => [(path, value)]
  | .scale path factor =>
    [(path, match base.get path, factor with
      | some (.num x), some factor => some (.num (x * factor))
      | _, _ => none)]
  | .swap strategy fields => ("strategy", strategy) :: fields

namespace Candidate

/-- The fields a candidate writes, with their values. -/
def writes (base : JsonValue) (cand : Candidate) : List (String × Option JsonValue) :=
  cand.ops.flatMap (CandidateOp.writes base)

/-- The fields a candidate writes. -/
def paths (cand : Candidate) : List String :=
  cand.ops.flatMap fun
    | .set path _ => [path]
    | .scale path _ => [path]
    | .swap _ fields => "strategy" :: fields.map Prod.fst

/-- What a field has under a candidate. -/
def valueOf (base : JsonValue) (cand : Candidate) (path : String) : Option JsonValue :=
  ((cand.writes base).lookup path).getD (base.get path)

theorem map_fst_writes (base : JsonValue) (cand : Candidate) :
    (cand.writes base).map Prod.fst = cand.paths := by
  unfold writes paths
  rw [List.map_flatMap]
  congr 1
  funext op
  cases op <;> rfl

end Candidate

theorem get_eq_lookup (spec : JsonValue) (path : String) :
    spec.get path = (properties spec).lookup path := by
  cases spec <;> rfl

theorem get_write (spec : JsonValue) (path other : String) (value : Option JsonValue) :
    (write spec path value).get other = if path = other then value else spec.get other := by
  rw [get_eq_lookup spec, write, get_obj]
  by_cases h : path = other
  · subst h
    have hnone : ((properties spec).filter (·.1 ≠ path)).lookup path = none := by
      rw [List.lookup_eq_none_iff]
      intro e he
      simpa [bne_iff_ne, ne_comm] using (List.mem_filter.mp he).2
    rw [if_pos rfl, List.lookup_append, lookup_optional_self, hnone, Option.or_none]
  · rw [if_neg h, lookup_optional_append_of_ne (Ne.symm h)]
    induction properties spec with
    | nil => rfl
    | cons e l ih =>
      rw [List.lookup_cons]
      by_cases hpath : e.1 = path
      · have hbeq : (other == e.1) = false := by
          rw [hpath]
          simpa using Ne.symm h
        rw [List.filter_cons_of_neg (by simpa using hpath), hbeq]
        exact ih
      · rw [List.filter_cons_of_pos (by simpa using hpath), List.lookup_cons]
        split
        · rfl
        · exact ih

/-- The fields are written one after the other. -/
def Working.puts (w : Working) (writes : List (String × Option JsonValue)) : Working :=
  writes.foldl (fun w e => w.put (w.written ++ [e.1]) e.1 e.2) w

theorem puts_append (w : Working) (l l' : List (String × Option JsonValue)) :
    w.puts (l ++ l') = (w.puts l).puts l' := List.foldl_append

theorem puts_written (l : List (String × Option JsonValue)) : ∀ w : Working,
    (w.puts l).written = w.written ++ l.map Prod.fst := by
  induction l with
  | nil => exact fun w => (List.append_nil _).symm
  | cons e l ih =>
    intro w
    show ((w.put (w.written ++ [e.1]) e.1 e.2).puts l).written = _
    rw [ih, Working.put, List.append_assoc, List.map_cons, List.singleton_append]

/-- Where no field is written twice, a field has what was written. -/
theorem puts_get {l : List (String × Option JsonValue)} (path : String) :
    ∀ w : Working, (l.map Prod.fst).Nodup →
      (w.puts l).spec.get path = (l.lookup path).getD (w.spec.get path) := by
  induction l with
  | nil => exact fun w _ => rfl
  | cons e l ih =>
    intro w hnodup
    rw [List.map_cons, List.nodup_cons] at hnodup
    show ((w.put (w.written ++ [e.1]) e.1 e.2).puts l).spec.get path = _
    rw [ih _ hnodup.2, Working.put, get_write, List.lookup_cons]
    by_cases h : e.1 = path
    · have hnone : l.lookup path = none := by
        rw [List.lookup_eq_none_iff]
        intro x hx
        have hne : x.1 ≠ path := fun heq =>
          hnodup.1 (List.mem_map.mpr ⟨x, hx, heq.trans h.symm⟩)
        simpa [bne_iff_ne, ne_comm] using hne
      rw [hnone, if_pos h, ← h, beq_self_eq_true]
      rfl
    · have hbeq : (path == e.1) = false := by simpa using Ne.symm h
      rw [if_neg h, hbeq]

theorem claim_eq_ok {written written' : List String} {path : String}
    (h : claim written path = .ok written') : path ∉ written ∧ written' = written ++ [path] := by
  unfold claim at h
  split at h
  · cases h
  · rename_i hnot
    exact ⟨hnot, (Except.ok.inj h).symm⟩

/-- What accepted deltas write: each field once. -/
def Writes (w w' : Working) (l : List (String × Option JsonValue)) : Prop :=
  w' = w.puts l ∧ (w.written.Nodup → w'.written.Nodup)

theorem Writes.put {w w' : Working} {path : String} {value : Option JsonValue}
    {l : List (String × Option JsonValue)} (hpath : path ∉ w.written)
    (h : Writes (w.put (w.written ++ [path]) path value) w' l) :
    Writes w w' ((path, value) :: l) := by
  refine ⟨h.1, fun hnodup => h.2 ?_⟩
  exact List.nodup_append'.mpr ⟨hnodup, List.nodup_singleton path,
    List.disjoint_singleton.mpr hpath⟩

theorem writes_applyFields {fields : List (String × Option JsonValue)} :
    ∀ {w w' : Working}, applyFields w fields = .ok w' → Writes w w' fields := by
  induction fields with
  | nil =>
    intro w w' h
    rw [← Except.ok.inj h]
    exact ⟨rfl, id⟩
  | cons e fields ih =>
    intro w w' h
    obtain ⟨⟨⟩, -, h⟩ := bind_eq_ok.mp h
    obtain ⟨written, hclaim, h⟩ := bind_eq_ok.mp h
    obtain ⟨hpath, rfl⟩ := claim_eq_ok hclaim
    exact (ih h).put hpath

theorem writes_applyOp {base : JsonValue} {op : CandidateOp} {w w' : Working}
    (h : applyOp base w op = .ok w') : Writes w w' (op.writes base) := by
  cases op with
  | set path value =>
    obtain ⟨⟨⟩, -, h⟩ := bind_eq_ok.mp h
    obtain ⟨written, hclaim, h⟩ := bind_eq_ok.mp h
    obtain ⟨hpath, rfl⟩ := claim_eq_ok hclaim
    rw [← Except.ok.inj h]
    exact .put hpath ⟨rfl, id⟩
  | scale path factor =>
    obtain ⟨⟨⟩, -, h⟩ := bind_eq_ok.mp h
    obtain ⟨written, hclaim, h⟩ := bind_eq_ok.mp h
    obtain ⟨hpath, rfl⟩ := claim_eq_ok hclaim
    split at h
    · rename_i x factor hbase _ _
      have hwrites : CandidateOp.writes base (.scale path (some factor))
          = [(path, some (.num (x * factor)))] := by simp [CandidateOp.writes, hbase]
      rw [hwrites, ← Except.ok.inj h]
      exact .put hpath ⟨rfl, id⟩
    · cases h
    · cases h
  | swap strategy fields =>
    obtain ⟨written, hclaim, h⟩ := bind_eq_ok.mp h
    obtain ⟨hpath, rfl⟩ := claim_eq_ok hclaim
    exact .put hpath (writes_applyFields h)

theorem writes_applyOps {base : JsonValue} {ops : List CandidateOp} : ∀ {w w' : Working},
    applyOps base w ops = .ok w' → Writes w w' (ops.flatMap (CandidateOp.writes base)) := by
  induction ops with
  | nil =>
    intro w w' h
    rw [← Except.ok.inj h]
    exact ⟨rfl, id⟩
  | cons op ops ih =>
    intro w w' h
    obtain ⟨w₁, hop, h⟩ := bind_eq_ok.mp h
    obtain ⟨rfl, hnodup⟩ := writes_applyOp hop
    obtain ⟨rfl, hnodup'⟩ := ih h
    refine ⟨?_, fun hw => hnodup' (hnodup hw)⟩
    rw [List.flatMap_cons, puts_append]

/-- What the guards let through. -/
structure Guarded (spec : JsonValue) (paths : List String) : Prop where
  period : "windowMs" ∈ paths ∨ "periodMs" ∈ paths → spec.get "period" = none
  periodMs : "windowMs" ∈ paths → spec.get "strategy" = some (.str "gcra") →
    spec.get "periodMs" = none
  consumed : ∀ strategy consumed, spec.get "strategy" = some (.str strategy) →
    consumedByStrategy strategy = some consumed → ∀ path ∈ paths, path ∈ consumed

theorem refuseInert_eq_ok {strategy : String} {consumed written : List String}
    (hconsumed : consumedByStrategy strategy = some consumed)
    (h : refuseInert (some (.str strategy)) written = .ok ()) :
    ∀ path ∈ written, path ∈ consumed := by
  unfold refuseInert at h
  dsimp only at h
  rw [hconsumed] at h
  dsimp only at h
  split at h
  · cases h
  · rename_i hfind
    intro path hpath
    simpa using List.find?_eq_none.mp hfind path hpath

/-- **An accepted candidate** writes its fields, and the guards have let them through. -/
theorem resolveCandidate_spec {base : JsonValue} {cand : Candidate} {r : ResolvedCandidate}
    (h : resolveCandidate base cand = .ok r) :
    (∀ path, r.spec.get path = cand.valueOf base path) ∧ Guarded r.spec cand.paths := by
  obtain ⟨w, hops, h⟩ := bind_eq_ok.mp h
  obtain ⟨rfl, hnodup⟩ := writes_applyOps hops
  have hwritten : (Working.puts ⟨.obj (properties base), []⟩ (cand.writes base)).written
    = cand.paths := by
    rw [puts_written, List.nil_append, cand.map_fst_writes]
  have hpaths : ((cand.writes base).map Prod.fst).Nodup := by
    rw [cand.map_fst_writes, ← hwritten]
    exact hnodup List.nodup_nil
  have hget : ∀ path, (Working.puts ⟨.obj (properties base), []⟩ (cand.writes base)).spec.get path
      = cand.valueOf base path := by
    intro path
    rw [puts_get path _ hpaths, Candidate.valueOf, get_eq_lookup base]
    rfl
  obtain ⟨⟨⟩, hperiod, h⟩ := bind_eq_ok.mp h
  obtain ⟨⟨⟩, hperiodMs, h⟩ := bind_eq_ok.mp h
  obtain ⟨⟨⟩, hinert, h⟩ := bind_eq_ok.mp h
  obtain rfl := Except.ok.inj h
  refine ⟨hget, fun hpath => ?_, fun hpath hgcra => ?_,
    fun strategy consumed hstrategy hconsumed => ?_⟩
  · unfold refusePeriod at hperiod
    split at hperiod
    · cases hperiod
    · rename_i hnot
      rw [← hwritten] at hpath
      by_contra hsome
      exact hnot ⟨hpath, Option.isSome_iff_ne_none.mpr hsome⟩
  · unfold refusePeriodMs at hperiodMs
    split at hperiodMs
    · cases hperiodMs
    · rename_i hnot
      rw [← hwritten] at hpath
      by_contra hsome
      refine hnot ⟨hpath, ?_, Option.isSome_iff_ne_none.mpr hsome⟩
      change _ = some (JsonValue.str "gcra") at hgcra
      rw [show (Working.spec _).get "strategy" = _ from hgcra]
      rfl
  · change _ = some (JsonValue.str strategy) at hstrategy
    rw [show (Working.spec _).get "strategy" = _ from hstrategy] at hinert
    have hpaths := refuseInert_eq_ok hconsumed hinert
    intro path hpath
    rw [← hwritten] at hpath
    exact hpaths path hpath

end ThrottleKit.Candidates
