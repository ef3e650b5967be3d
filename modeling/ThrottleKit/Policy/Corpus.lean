import ThrottleKit.Policy.Plan

/-!
# The corpus of a plan

A corpus is folded from recorded traces: the arrivals of a policy are those of its traces, one trace
after the other. The cold recorder that gets them expects them in chronological order, so that
traces which overlap in time, such as the segments of two servers, are recorded with a clock that
goes back.

## Main definitions

* `policyCorpus`, `corpusFromTraces`, `corpusFromCapture` — the code
* `TimeOrdered` — the arrivals are those of the traces, in order of time
* `InTurn` — every trace ends before the next begins

## Main results

* `chronological_iff` — traces in order of time make arrivals in order of time exactly in turn
* `timeOrdered_iff` — what the order of the traces does to the arrivals, and to plans
* `lookup_corpusFromCapture` — the traces of a policy stand in the order of the listing

## What is left out

A policy named `__proto__` in an object of traces, whose corpus becomes the prototype of the corpus.
Of the capture store, what lists and exports segments: a listing and the outcome of every export are
given.
-/

namespace ThrottleKit.PolicyPlans

open BuildStrategy JsonValue Replay

/-! ### Traces -/

/-- The arrivals of a trace. -/
def arrivalsFromTrace (trace : Trace) : List Arrival :=
  trace.steps.map fun s => ⟨s.key, s.cost, s.instant⟩

/-- The loop of `policyCorpus`. -/
def PolicyCorpus.add (pc : PolicyCorpus) (t : Trace) : PolicyCorpus where
  arrivals := t.steps.foldl (fun arrivals s => arrivals ++ [⟨s.key, s.cost, s.instant⟩]) pc.arrivals
  truncated := if t.truncated then true else pc.truncated
  traces := pc.traces

/-- `policyCorpus(traces)`. -/
def policyCorpus (traces : List Trace) : PolicyCorpus :=
  { traces.foldl PolicyCorpus.add ⟨[], false, 0⟩ with traces := traces.length }

/-- `T | readonly T[]`. -/
inductive OneOrMany (α : Type)
  | one (x : α)
  | many (xs : List α)

/-- `asArray(v)`. -/
def OneOrMany.asArray {α : Type} : OneOrMany α → List α
  | .one x => [x]
  | .many xs => xs

/-- `corpusFromTraces(traces)`. -/
def corpusFromTraces (traces : OrderedMap String (OneOrMany Trace)) : TraceCorpus :=
  traces.mapVal fun t => policyCorpus t.asArray

theorem foldl_add (traces : List Trace) (pc : PolicyCorpus) :
    traces.foldl PolicyCorpus.add pc = ⟨pc.arrivals ++ traces.flatMap arrivalsFromTrace,
      pc.truncated || traces.any Trace.truncated, pc.traces⟩ := by
  induction traces generalizing pc with
  | nil => simp
  | cons t traces ih =>
    have hsteps : ∀ (steps : List Step) (arrivals : List Arrival),
        steps.foldl (fun arrivals s => arrivals ++ [⟨s.key, s.cost, s.instant⟩]) arrivals
          = arrivals ++ steps.map fun s => (⟨s.key, s.cost, s.instant⟩ : Arrival) := by
      intro steps
      induction steps with
      | nil => simp
      | cons s steps ih => simp [ih]
    rw [List.foldl_cons, ih, PolicyCorpus.add, hsteps, List.flatMap_cons, List.any_cons,
      List.append_assoc]
    cases t.truncated
    · rfl
    · simp [arrivalsFromTrace]

/-- **The arrivals of a corpus** are those of the traces, one after the other. -/
theorem policyCorpus_eq (traces : List Trace) :
    policyCorpus traces
      = ⟨traces.flatMap arrivalsFromTrace, traces.any Trace.truncated, traces.length⟩ := by
  rw [policyCorpus, foldl_add]
  rfl

/-! ### Order of time -/

/-- Arrivals in non-decreasing order of time. -/
def Chronological (arrivals : List Arrival) : Prop :=
  arrivals.Pairwise fun a b => a.instant ≤ b.instant

/-- Every trace ends before the next begins. -/
def InTurn (traces : List Trace) : Prop :=
  traces.Pairwise fun t t' => ∀ a ∈ arrivalsFromTrace t, ∀ b ∈ arrivalsFromTrace t',
    a.instant ≤ b.instant

/-- No two traces have an instant in common. -/
def DistinctInstants (traces : List Trace) : Prop :=
  traces.Pairwise fun t t' => ∀ a ∈ arrivalsFromTrace t, ∀ b ∈ arrivalsFromTrace t',
    a.instant ≠ b.instant

/-- The arrivals handed to the recorder are all of the traces', in order of time. -/
structure TimeOrdered (traces : List Trace) : Prop where
  union : ((policyCorpus traces).arrivals : Multiset Arrival)
    = (traces.map fun t => (arrivalsFromTrace t : Multiset Arrival)).sum
  ordered : Chronological (policyCorpus traces).arrivals

/-- Plans over any corpora that differ in the traces of one policy only are the same. -/
def SamePlans (traces traces' : List Trace) : Prop :=
  ∀ lib current candidate (others : OrderedMap String (OneOrMany Trace)) name options,
    plan lib current candidate (corpusFromTraces (others.set name (.many traces))) options
      = plan lib current candidate (corpusFromTraces (others.set name (.many traces'))) options

theorem union_eq (traces : List Trace) :
    ((policyCorpus traces).arrivals : Multiset Arrival)
      = (traces.map fun t => (arrivalsFromTrace t : Multiset Arrival)).sum := by
  rw [policyCorpus_eq]
  dsimp only
  induction traces with
  | nil => rfl
  | cons t traces ih =>
    rw [List.flatMap_cons, ← Multiset.coe_add, ih, List.map_cons, List.sum_cons]

/-- **Traces in order of time make arrivals in order of time exactly when they are in turn.** -/
theorem chronological_iff {traces : List Trace}
    (h : ∀ t ∈ traces, Chronological (arrivalsFromTrace t)) :
    Chronological (policyCorpus traces).arrivals ↔ InTurn traces := by
  rw [policyCorpus_eq]
  dsimp only
  rw [Chronological, List.pairwise_flatMap]
  exact and_iff_right h

/-- A trace that has arrivals. -/
def hasArrivals (t : Trace) : Bool := !(arrivalsFromTrace t).isEmpty

/-- Every arrival of the one is before every arrival of the other. -/
def Before (t t' : Trace) : Prop :=
  ∀ a ∈ arrivalsFromTrace t, ∀ b ∈ arrivalsFromTrace t', a.instant < b.instant

theorem exists_arrival {t : Trace} (h : hasArrivals t = true) : ∃ a, a ∈ arrivalsFromTrace t := by
  cases ht : arrivalsFromTrace t with
  | nil => simp [hasArrivals, ht] at h
  | cons a arrivals => exact ⟨a, List.mem_cons_self ..⟩

theorem Before.asymm {t t' : Trace} (h : Before t t') (ht : hasArrivals t = true)
    (ht' : hasArrivals t' = true) : ¬ Before t' t := by
  intro h'
  obtain ⟨a, ha⟩ := exists_arrival ht
  obtain ⟨b, hb⟩ := exists_arrival ht'
  exact (h a ha b hb).asymm (h' b hb a ha)

/-- Where no instant is shared, one of two traces in turn is before the other. -/
theorem pairwise_before {traces : List Trace} (hdistinct : DistinctInstants traces)
    (h : InTurn traces) : (traces.filter hasArrivals).Pairwise Before := by
  refine ((hdistinct.and h).imp fun {t t'} hboth a ha b hb => ?_).filter _
  exact lt_of_le_of_ne (hboth.2 a ha b hb) (hboth.1 a ha b hb)

theorem flatMap_filter_hasArrivals (traces : List Trace) :
    (traces.filter hasArrivals).flatMap arrivalsFromTrace = traces.flatMap arrivalsFromTrace := by
  induction traces with
  | nil => rfl
  | cons t traces ih =>
    rw [List.flatMap_cons, ← ih]
    by_cases ht : hasArrivals t = true
    · rw [List.filter_cons_of_pos ht, List.flatMap_cons]
    · have hnone : arrivalsFromTrace t = [] := by simpa [hasArrivals] using ht
      rw [List.filter_cons_of_neg ht, hnone, List.nil_append]

/-- Traces without shared instants are in turn in one order only, up to those without arrivals. -/
theorem flatMap_eq_of_perm {traces traces' : List Trace} (hperm : traces.Perm traces')
    (hdistinct : DistinctInstants traces) (h : InTurn traces) (h' : InTurn traces') :
    traces.flatMap arrivalsFromTrace = traces'.flatMap arrivalsFromTrace := by
  have hdistinct' : DistinctInstants traces' :=
    (hperm.pairwise_iff fun {t t'} hne a ha b hb => (hne b hb a ha).symm).mp hdistinct
  have hsame : traces.filter hasArrivals = traces'.filter hasArrivals := by
    refine List.Perm.eq_of_pairwise (fun t t' ht ht' hlt hgt => ?_)
      (pairwise_before hdistinct h) (pairwise_before hdistinct' h') (hperm.filter _)
    exact absurd hgt (hlt.asymm (List.mem_filter.mp ht).2 (List.mem_filter.mp ht').2)
  rw [← flatMap_filter_hasArrivals traces, hsame, flatMap_filter_hasArrivals]

/-- A corpus is the same when its arrivals are. -/
theorem policyCorpus_eq_of_perm {traces traces' : List Trace} (hperm : traces.Perm traces')
    (h : traces.flatMap arrivalsFromTrace = traces'.flatMap arrivalsFromTrace) :
    policyCorpus traces = policyCorpus traces' := by
  rw [policyCorpus_eq, policyCorpus_eq, h, hperm.any_eq, hperm.length_eq]

theorem samePlans_of_eq {traces traces' : List Trace}
    (h : policyCorpus traces = policyCorpus traces') : SamePlans traces traces' := by
  intro lib current candidate others name options
  rw [corpusFromTraces, corpusFromTraces, OrderedMap.mapVal_set, OrderedMap.mapVal_set,
    OneOrMany.asArray, OneOrMany.asArray, h]

/-- **The arrivals are in order of time, and plans do not depend on the order of the traces, exactly
when the traces are in turn in both orders**, for traces that are each in order of time. -/
theorem timeOrdered_iff {traces traces' : List Trace} (hperm : traces.Perm traces')
    (hordered : ∀ t ∈ traces, Chronological (arrivalsFromTrace t)) :
    (TimeOrdered traces ∧ TimeOrdered traces' ∧
        (DistinctInstants traces → SamePlans traces traces')) ↔ InTurn traces ∧ InTurn traces' := by
  have hordered' : ∀ t ∈ traces', Chronological (arrivalsFromTrace t) :=
    fun t ht => hordered t (hperm.mem_iff.mpr ht)
  constructor
  · rintro ⟨h, h', -⟩
    exact ⟨(chronological_iff hordered).mp h.ordered, (chronological_iff hordered').mp h'.ordered⟩
  · rintro ⟨h, h'⟩
    refine ⟨⟨union_eq traces, (chronological_iff hordered).mpr h⟩,
      ⟨union_eq traces', (chronological_iff hordered').mpr h'⟩, fun hdistinct => ?_⟩
    exact samePlans_of_eq
      (policyCorpus_eq_of_perm hperm (flatMap_eq_of_perm hperm hdistinct h h'))

/-! ### The capture store -/

/-- A row of the listing. -/
structure CaptureListRow where
  id : String
  policy : Option String
  replayable : Option Bool
  unreadable : Option Bool

/-- What `export` gives. -/
inductive CaptureExport
  | replayTrace (trace : Trace)
  | forensic

/-- A segment that was left out of the corpus. -/
structure CorpusSkip where
  id : String
  policy : Option String
  reason : String

/-- A policy of the corpus, with how many segments it has. -/
structure CorpusSource where
  policy : String
  segments : ℕ

/-- What the loop of `corpusFromCapture` keeps. -/
structure Gathered where
  traces : OrderedMap String (List Trace)
  counts : OrderedMap String ℕ
  skipped : List CorpusSkip

/-- The trace of a row that is to be read, where `exports` gives the output of every `export` that
succeeds; or why there is none. -/
def rowTrace (exports : String → Option CaptureExport) (row : CaptureListRow) :
    Except CorpusSkip (String × Trace) :=
  if row.unreadable = some true then .error ⟨row.id, none, "unreadable"⟩
  else if row.replayable ≠ some true then .error ⟨row.id, row.policy, "not-leaf-rate"⟩
  else match exports row.id with
    | some (.replayTrace trace) => .ok (row.policy.getD "unknown", trace)
    | _ => .error ⟨row.id, row.policy, "export-failed"⟩

/-- One turn of the loop of `corpusFromCapture`. A name that every object has finds what it
inherits, which has no `push`: a `TypeError`. -/
def Gathered.add (exports : String → Option CaptureExport) (acc : Gathered) (row : CaptureListRow) :
    Option Gathered :=
  match rowTrace exports row with
  | .error skip => some { acc with skipped := acc.skipped ++ [skip] }
  | .ok (policyName, trace) =>
    if (acc.traces.lookup policyName).isNone ∧ policyName ∈ objectPrototype then none
    else
      let bucket := (acc.traces.lookup policyName).getD []
      some ⟨acc.traces.set policyName (bucket ++ [trace]),
        acc.counts.set policyName ((acc.counts.lookup policyName).getD 0 + 1), acc.skipped⟩

/-- What `corpusFromCapture` returns. -/
structure CaptureCorpusResult where
  corpus : TraceCorpus
  sources : List CorpusSource
  skipped : List CorpusSkip

/-- `corpusFromCapture` after an authorized listing. -/
def corpusFromCapture (rows : List CaptureListRow) (exports : String → Option CaptureExport) :
    Option CaptureCorpusResult := do
  let acc ← rows.foldlM (Gathered.add exports) ⟨.empty, .empty, []⟩
  return ⟨corpusFromTraces (acc.traces.mapVal .many),
    acc.counts.entries.map fun e => ⟨e.1, e.2⟩, acc.skipped⟩

/-- The traces of a policy among the rows. -/
def tracesOf (exports : String → Option CaptureExport) (policy : String)
    (rows : List CaptureListRow) : List Trace :=
  rows.filterMap fun row => match rowTrace exports row with
    | .ok (policyName, trace) => if policyName = policy then some trace else none
    | .error _ => none

/-- What the loop gathers for a policy: the traces so far, and then those of the rows. -/
theorem lookup_foldlM_add {exports : String → Option CaptureExport} {rows : List CaptureListRow}
    {acc acc' : Gathered} (h : rows.foldlM (Gathered.add exports) acc = some acc')
    (policy : String) :
    (acc'.traces.lookup policy).getD []
      = (acc.traces.lookup policy).getD [] ++ tracesOf exports policy rows := by
  induction rows generalizing acc with
  | nil =>
    obtain rfl := Option.some.inj h
    exact (List.append_nil _).symm
  | cons row rows ih =>
    rw [List.foldlM_cons] at h
    obtain ⟨mid, hadd, hrest⟩ := Option.bind_eq_some_iff.mp h
    rw [ih hrest]
    rw [Gathered.add] at hadd
    cases hrow : rowTrace exports row with
    | error skip =>
      rw [hrow] at hadd
      obtain rfl := Option.some.inj hadd
      rw [tracesOf, tracesOf, List.filterMap_cons, hrow]
    | ok entry =>
      obtain ⟨policyName, trace⟩ := entry
      rw [hrow] at hadd
      dsimp only at hadd
      split at hadd
      · cases hadd
      obtain rfl := Option.some.inj hadd
      rw [tracesOf, tracesOf, List.filterMap_cons, hrow, OrderedMap.lookup_set]
      dsimp only
      by_cases hname : policyName = policy
      · subst hname
        rw [if_pos rfl, if_pos rfl, Option.getD_some, List.append_assoc]
        rfl
      · rw [if_neg hname, if_neg hname]

/-- **The traces of a policy stand in the order of the listing**: its arrivals in the corpus are
those of its rows. -/
theorem lookup_corpusFromCapture {rows : List CaptureListRow}
    {exports : String → Option CaptureExport} {result : CaptureCorpusResult}
    (h : corpusFromCapture rows exports = some result) {policy : String} {pc : PolicyCorpus}
    (hpolicy : result.corpus.lookup policy = some pc) :
    pc = policyCorpus (tracesOf exports policy rows) := by
  rw [corpusFromCapture] at h
  obtain ⟨acc, hloop, hresult⟩ := Option.bind_eq_some_iff.mp h
  obtain rfl := Option.some.inj hresult
  have hgathered := lookup_foldlM_add hloop policy
  rw [OrderedMap.lookup_empty, Option.getD_none, List.nil_append] at hgathered
  rw [corpusFromTraces, OrderedMap.lookup_mapVal, OrderedMap.lookup_mapVal] at hpolicy
  cases htraces : acc.traces.lookup policy with
  | none =>
    rw [htraces] at hpolicy
    cases hpolicy
  | some traces =>
    rw [htraces] at hpolicy hgathered
    rw [← hgathered]
    exact (Option.some.inj hpolicy).symm

/-! ### Two servers -/

instance (arrivals : List Arrival) : Decidable (Chronological arrivals) :=
  inferInstanceAs (Decidable (arrivals.Pairwise fun a b => a.instant ≤ b.instant))

instance (traces : List Trace) : Decidable (InTurn traces) :=
  inferInstanceAs (Decidable (traces.Pairwise fun t t' => ∀ a ∈ arrivalsFromTrace t,
    ∀ b ∈ arrivalsFromTrace t', a.instant ≤ b.instant))

instance (traces : List Trace) : Decidable (DistinctInstants traces) :=
  inferInstanceAs (Decidable (traces.Pairwise fun t t' => ∀ a ∈ arrivalsFromTrace t,
    ∀ b ∈ arrivalsFromTrace t', a.instant ≠ b.instant))

theorem distinct_twicePerSecond : (JsonValue.obj [("strategy", .str "fixedWindow"),
    ("limit", .num 2), ("windowMs", .num 1000)]).Distinct := by
  simp [Distinct, PropertiesDistinct]

/-- Two units a second. -/
def twicePerSecond : LimiterSpec := ⟨_, distinct_twicePerSecond⟩

/-- A server's trace of one key. -/
def traceAt (instants : List ℚ) : Trace :=
  recorded wholeLibrary oncePerSecond oncePerSecondWindow {}
    (instants.flatMap fun instant => [.set instant, .checkSync "a" 1])

/-- The flips from one unit a second to two. -/
def flipsOver (traces : List Trace) : Option ℕ :=
  (plan wholeLibrary ⟨none, [⟨"api", oncePerSecond⟩], none, ""⟩
    ⟨none, [⟨"api", twicePerSecond⟩], none, ""⟩
    (corpusFromTraces (OrderedMap.empty.set "api" (.many traces))) ⟨none⟩).toOption.map
      fun p => p.summary.flippedTotal

/-- Three servers in turn, of which one is idle: it may be listed first. -/
theorem timeOrdered_idle :
    TimeOrdered [traceAt [0, 500], traceAt [], traceAt [1000]] ∧
      TimeOrdered [traceAt [], traceAt [0, 500], traceAt [1000]] ∧
      (DistinctInstants [traceAt [0, 500], traceAt [], traceAt [1000]] →
        SamePlans [traceAt [0, 500], traceAt [], traceAt [1000]]
          [traceAt [], traceAt [0, 500], traceAt [1000]]) :=
  (timeOrdered_iff (.swap _ _ _) (by decide +kernel)).mpr ⟨by decide +kernel, by decide +kernel⟩

/-- **Two servers whose traces overlap**: the clock of the recorder is set back over the end of a
window, and the request that was denied is not. -/
theorem overlap_reordered :
    (∀ t ∈ [traceAt [0, 1500], traceAt [500]], Chronological (arrivalsFromTrace t)) ∧
      DistinctInstants [traceAt [0, 1500], traceAt [500]] ∧
      ¬ TimeOrdered [traceAt [0, 1500], traceAt [500]] ∧
      ¬ SamePlans [traceAt [0, 1500], traceAt [500]] [traceAt [500], traceAt [0, 1500]] := by
  have hback : ¬ Chronological (policyCorpus [traceAt [0, 1500], traceAt [500]]).arrivals := by
    decide +kernel
  have hnone : flipsOver [traceAt [0, 1500], traceAt [500]] = some 0 := by decide +kernel
  have hone : flipsOver [traceAt [500], traceAt [0, 1500]] = some 1 := by decide +kernel
  refine ⟨by decide +kernel, by decide +kernel, fun h => hback h.ordered, fun h => ?_⟩
  have hsame : flipsOver [traceAt [0, 1500], traceAt [500]]
      = flipsOver [traceAt [500], traceAt [0, 1500]] := by
    rw [flipsOver, h, flipsOver]
  rw [hnone, hone] at hsame
  cases hsame

end ThrottleKit.PolicyPlans
