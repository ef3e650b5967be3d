import ThrottleKit.Algorithms.FixedWindow
import ThrottleKit.Lib.EvenSplit
import ThrottleKit.Lib.OrderedMap

/-!
# The static partition

The baseline of federation: a global budget is split over the regions once and for all, each region
runs the strategy that a factory builds for its slice, and the remainder goes to the earliest
regions.

The results are plain objects keyed by region. An assignment to `__proto__` is the one that leaves
no entry in a plain object, so a region of that name gets neither a slice nor a strategy. A budget
that is not whole leaves a remainder that is not whole, which is handed out rounded up.

## Main definitions

* `staticPartition` — the slices and the strategies of the regions, or what the call throws
* `Partitioned` — positive slices at most one apart that sum up to the whole units of the budget,
  and a strategy built from each

## Main results

* `staticPartition_eq_ok` — what a call that returns was given, and the entries that it leaves
* `partitioned_iff` — exactly the whole budgets are split as `Partitioned` says, over regions of
  which none is named `__proto__`

## What is left out

The order in which the entries of a result are listed, and the rounding of doubles: the steps on a
whole budget are exact below `2 ^ 53`, and a larger one may be handed out with a unit too many.
-/

namespace ThrottleKit.StaticPartition

variable {S ε : Type}

/-- The options of `staticPartition`. A factory may throw. -/
structure StaticPartitionOptions (S ε : Type) where
  /-- The total budget to split across regions. -/
  globalLimit : ℚ
  regions : List String
  strategyFactory : ℤ → Except ε (Strategy S)

/-- The entries by region. -/
structure StaticPartitionResult (S : Type) where
  strategies : OrderedMap String (Strategy S)
  slices : OrderedMap String ℤ

/-- What a call throws: the four checks of its arguments, and whatever the factory throws. -/
inductive PartitionError (ε : Type)
  | globalLimit (value : ℚ)
  | noRegions
  | tooManyRegions (value : ℚ) (regions : ℕ)
  | duplicate (region : String)
  | factory (e : ε)
deriving DecidableEq

/-- The message of the error, where it is not the factory's. -/
def PartitionError.message : PartitionError ε → Option String
  | .globalLimit value =>
    some ("globalLimit must be a finite number >= 1, got " ++ toString value)
  | .noRegions => some "regions must be non-empty"
  | .tooManyRegions value regions =>
    some ("globalLimit (" ++ toString value ++ ") must be >= regions.length (" ++
      toString regions ++ "); a slice rounding to 0 means every region always denies")
  | .duplicate region => some ("duplicate region \"" ++ region ++ "\" in regions list")
  | .factory _ => none

/-- `record[region] = value`. An assignment to `__proto__` makes no entry. -/
def assign {ν : Type} (record : OrderedMap String ν) (region : String) (value : ν) :
    OrderedMap String ν :=
  if region = "__proto__" then record else record.set region value

/-- The loop over `seen`: the first region that was there before. -/
def firstDuplicate : List String → List String → Option String
  | _, [] => none
  | seen, r :: rs => if r ∈ seen then some r else firstDuplicate (r :: seen) rs

namespace StaticPartitionOptions

/-- `Math.floor(globalLimit / K)`. -/
def base (o : StaticPartitionOptions S ε) : ℤ := ⌊o.globalLimit / o.regions.length⌋

/-- `globalLimit - base * K`. -/
def remainder (o : StaticPartitionOptions S ε) : ℚ :=
  o.globalLimit - o.base * o.regions.length

/-- The slice of the region at index `i`: earlier regions get one more until the remainder is
exhausted. -/
def slice (o : StaticPartitionOptions S ε) (i : ℕ) : ℤ :=
  o.base + if (i : ℚ) < o.remainder then 1 else 0

/-- The loop over the regions from index `i` on. -/
def build (o : StaticPartitionOptions S ε) : ℕ → List String → StaticPartitionResult S →
    Except (PartitionError ε) (StaticPartitionResult S)
  | _, [], result => .ok result
  | i, region :: rest, result =>
    match o.strategyFactory (o.slice i) with
    | .error e => .error (.factory e)
    | .ok strategy =>
      o.build (i + 1) rest
        ⟨assign result.strategies region strategy, assign result.slices region (o.slice i)⟩

end StaticPartitionOptions

/-- `staticPartition(options)`. -/
def staticPartition (o : StaticPartitionOptions S ε) :
    Except (PartitionError ε) (StaticPartitionResult S) :=
  if o.globalLimit < 1 then .error (.globalLimit o.globalLimit)
  else if o.regions.length = 0 then .error .noRegions
  else if o.globalLimit < o.regions.length then
    .error (.tooManyRegions o.globalLimit o.regions.length)
  else match firstDuplicate [] o.regions with
    | some region => .error (.duplicate region)
    | none => o.build 0 o.regions ⟨.empty, .empty⟩

/-- The budget is handed out: slices that are positive and at most one apart, no more and no less of
them than regions, a strategy built from each, and in all the whole units of the budget. -/
structure Partitioned (o : StaticPartitionOptions S ε) (r : StaticPartitionResult S) : Prop where
  listed : ∀ region ∈ o.regions, ∃ x, r.slices.lookup region = some x ∧ 0 < x ∧
    ∃ strategy, o.strategyFactory x = .ok strategy ∧ r.strategies.lookup region = some strategy
  slices_only : ∀ region ∈ r.slices.keys, region ∈ o.regions
  strategies_only : ∀ region ∈ r.strategies.keys, region ∈ o.regions
  close : ∀ region x region' x', r.slices.lookup region = some x →
    r.slices.lookup region' = some x' → x ≤ x' + 1
  sum : (r.slices.sum fun _ x => x) = ⌊o.globalLimit⌋

variable {o : StaticPartitionOptions S ε} {r : StaticPartitionResult S}

/-! ### The checks -/

theorem firstDuplicate_eq_none : ∀ seen regions, firstDuplicate seen regions = none ↔
    regions.Nodup ∧ ∀ region ∈ regions, region ∉ seen := by
  intro seen regions
  induction regions generalizing seen with
  | nil => simp [firstDuplicate]
  | cons region rest ih =>
    rw [firstDuplicate]
    split_ifs with hseen
    · simp [hseen]
    · rw [ih, List.nodup_cons]
      simp only [List.mem_cons, not_or, forall_eq_or_imp]
      constructor
      · rintro ⟨hnodup, hnew⟩
        exact ⟨⟨fun hmem => (hnew region hmem).1 rfl, hnodup⟩, hseen, fun x hx => (hnew x hx).2⟩
      · rintro ⟨⟨hnotMem, hnodup⟩, -, hnew⟩
        exact ⟨hnodup, fun x hx => ⟨fun heq => hnotMem (heq ▸ hx), hnew x hx⟩⟩

/-- The arguments that pass the checks. -/
structure Accepted (o : StaticPartitionOptions S ε) : Prop where
  length_pos : 0 < o.regions.length
  length_le : (o.regions.length : ℚ) ≤ o.globalLimit
  nodup : o.regions.Nodup

/-- What a call that returns was given. -/
theorem staticPartition_eq_ok :
    staticPartition o = .ok r ↔ Accepted o ∧ o.build 0 o.regions ⟨.empty, .empty⟩ = .ok r := by
  unfold staticPartition
  split_ifs with hlimit hempty hfew
  · refine ⟨(fun h => by cases h), fun ⟨h, _⟩ => ?_⟩
    have hone : (1 : ℚ) ≤ o.regions.length := Nat.one_le_cast.mpr h.length_pos
    linarith [h.length_le]
  · exact ⟨(fun h => by cases h), fun ⟨h, _⟩ => absurd hempty h.length_pos.ne'⟩
  · exact ⟨(fun h => by cases h), fun ⟨h, _⟩ => absurd hfew (not_lt.mpr h.length_le)⟩
  · cases hdup : firstDuplicate [] o.regions with
    | some region =>
      refine ⟨(fun h => by cases h), fun ⟨h, _⟩ => ?_⟩
      rw [(firstDuplicate_eq_none [] o.regions).mpr ⟨h.nodup, fun _ _ => List.not_mem_nil⟩] at hdup
      cases hdup
    | none =>
      have hnodup := ((firstDuplicate_eq_none [] o.regions).mp hdup).1
      exact ⟨fun h => ⟨⟨Nat.pos_of_ne_zero hempty, not_lt.mp hfew, hnodup⟩, h⟩, fun h => h.2⟩

/-! ### The slices -/

theorem slice_pos (h : Accepted o) (i : ℕ) : 0 < o.slice i :=
  EvenSplit.part_pos h.length_pos h.length_le i

theorem slice_le (o : StaticPartitionOptions S ε) (i j : ℕ) : o.slice i ≤ o.slice j + 1 :=
  EvenSplit.part_le_part_add_one _ _ i j

/-- The slices make up the budget rounded up. -/
theorem sum_slice (h : Accepted o) :
    ((List.range o.regions.length).map o.slice).sum = ⌈o.globalLimit⌉ := by
  rw [← EvenSplit.sum_part o.globalLimit h.length_pos, ← List.sum_toFinset _ List.nodup_range,
    List.toFinset_range]
  rfl

/-! ### The loop -/

theorem lookup_assign_proto {ν : Type} (record : OrderedMap String ν) (region : String)
    (value : ν) :
    (assign record region value).lookup "__proto__" = record.lookup "__proto__" := by
  rw [assign]
  split_ifs with hname
  · rfl
  · exact OrderedMap.lookup_set_of_ne record value hname

theorem entries_assign {ν : Type} {record : OrderedMap String ν} {region : String} {value : ν}
    (hname : region ≠ "__proto__") (hnew : region ∉ record.keys) :
    (assign record region value).entries = record.entries ++ [(region, value)] := by
  rw [assign, if_neg hname, OrderedMap.entries_set_of_notMem hnew]

theorem notMem_keys_assign {ν : Type} {record : OrderedMap String ν} {region x : String} {value : ν}
    (hne : x ≠ region) (hnew : x ∉ record.keys) : x ∉ (assign record region value).keys := by
  rw [assign]
  split_ifs
  · exact hnew
  · intro hmem
    rcases (OrderedMap.mem_map_put record.entries).mp hmem with heq | hmem
    · exact hne heq
    · exact hnew hmem

/-- No round leaves a slice at `__proto__`. -/
theorem lookup_slices_proto : ∀ (rest : List String) (i : ℕ) (result : StaticPartitionResult S),
    o.build i rest result = .ok r →
      r.slices.lookup "__proto__" = result.slices.lookup "__proto__" := by
  intro rest
  induction rest with
  | nil =>
    intro i result h
    rw [← Except.ok.inj h]
  | cons region rest ih =>
    intro i result h
    rw [StaticPartitionOptions.build] at h
    split at h
    · cases h
    · rw [ih _ _ h]
      exact lookup_assign_proto _ _ _

/-- The entries that the loop adds: the slices by index, and what the factory makes of them. -/
theorem entries_build : ∀ (rest : List String) (i : ℕ) (result : StaticPartitionResult S),
    rest.Nodup → "__proto__" ∉ rest →
    (∀ region ∈ rest, region ∉ result.slices.keys ∧ region ∉ result.strategies.keys) →
    o.build i rest result = .ok r →
      r.slices.entries = result.slices.entries ++ (rest.zipIdx i).map (Prod.map id o.slice) ∧
      ∃ built, r.strategies.entries = result.strategies.entries ++ built ∧
        List.Forall₂ (fun p e => e.1 = p.1 ∧ o.strategyFactory (o.slice p.2) = .ok e.2)
          (rest.zipIdx i) built := by
  intro rest
  induction rest with
  | nil =>
    intro i result _ _ _ h
    rw [← Except.ok.inj h]
    exact ⟨by simp, [], by simp, by simp⟩
  | cons region rest ih =>
    intro i result hnodup hname hnew h
    rw [List.nodup_cons] at hnodup
    rw [List.mem_cons, not_or] at hname
    rw [StaticPartitionOptions.build] at h
    split at h
    · cases h
    · rename_i strategy hstrategy
      have hregion := hnew region List.mem_cons_self
      obtain ⟨hslices, built, hstrategies, hbuilt⟩ := ih _ _ hnodup.2 hname.2
        (fun x hx => by
          have hne : x ≠ region := fun heq => hnodup.1 (heq ▸ hx)
          have hx' := hnew x (List.mem_cons_of_mem _ hx)
          exact ⟨notMem_keys_assign hne hx'.1, notMem_keys_assign hne hx'.2⟩) h
      rw [entries_assign (Ne.symm hname.1) hregion.1] at hslices
      rw [entries_assign (Ne.symm hname.1) hregion.2] at hstrategies
      refine ⟨by simp [hslices, List.zipIdx_cons], (region, strategy) :: built, by
        simp [hstrategies], ?_⟩
      rw [List.zipIdx_cons]
      exact .cons ⟨rfl, hstrategy⟩ hbuilt

/-- The loop ends when the factory takes every slice. -/
theorem exists_build (hf : ∀ i, ∃ strategy, o.strategyFactory (o.slice i) = .ok strategy) :
    ∀ (rest : List String) (i : ℕ) (result : StaticPartitionResult S),
      ∃ r, o.build i rest result = .ok r := by
  intro rest
  induction rest with
  | nil => exact fun _ result => ⟨result, rfl⟩
  | cons region rest ih =>
    intro i result
    obtain ⟨strategy, hstrategy⟩ := hf i
    rw [StaticPartitionOptions.build, hstrategy]
    exact ih _ _

/-- A call with arguments that pass the checks returns, when the factory takes every slice. -/
theorem exists_staticPartition (h : Accepted o)
    (hf : ∀ i, ∃ strategy, o.strategyFactory (o.slice i) = .ok strategy) :
    ∃ r, staticPartition o = .ok r := by
  obtain ⟨r, hr⟩ := exists_build hf o.regions 0 ⟨.empty, .empty⟩
  exact ⟨r, staticPartition_eq_ok.mpr ⟨h, hr⟩⟩

/-- The entries of a result, where no region is named `__proto__`. -/
theorem entries_staticPartition (h : staticPartition o = .ok r)
    (hname : "__proto__" ∉ o.regions) :
    r.slices.entries = o.regions.zipIdx.map (Prod.map id o.slice) ∧
      List.Forall₂ (fun p e => e.1 = p.1 ∧ o.strategyFactory (o.slice p.2) = .ok e.2)
        o.regions.zipIdx r.strategies.entries := by
  obtain ⟨hacc, hbuild⟩ := staticPartition_eq_ok.mp h
  obtain ⟨hslices, built, hstrategies, hbuilt⟩ := entries_build o.regions 0 ⟨.empty, .empty⟩
    hacc.nodup hname (fun _ _ => ⟨List.not_mem_nil, List.not_mem_nil⟩) hbuild
  have hbuilt' : r.strategies.entries = built := hstrategies
  exact ⟨hslices, hbuilt' ▸ hbuilt⟩

theorem keys_strategies (h : staticPartition o = .ok r) (hname : "__proto__" ∉ o.regions) :
    r.strategies.keys = o.regions := by
  have hbuilt := (entries_staticPartition h hname).2
  have hmap : ∀ (l : List (String × ℕ)) (es : List (String × Strategy S)),
      List.Forall₂ (fun p e => e.1 = p.1 ∧ o.strategyFactory (o.slice p.2) = .ok e.2) l es →
        es.map Prod.fst = l.map Prod.fst := by
    intro l es hl
    induction hl with
    | nil => rfl
    | cons he _ ih => rw [List.map_cons, List.map_cons, he.1, ih]
  rw [OrderedMap.keys, hmap _ _ hbuilt, List.zipIdx_map_fst]

theorem keys_slices (h : staticPartition o = .ok r) (hname : "__proto__" ∉ o.regions) :
    r.slices.keys = o.regions := by
  rw [OrderedMap.keys, (entries_staticPartition h hname).1, List.map_map]
  exact List.zipIdx_map_fst 0 o.regions

/-- A slice that is there is the one at an index. -/
theorem exists_slice_of_lookup (h : staticPartition o = .ok r) (hname : "__proto__" ∉ o.regions)
    {region : String} {x : ℤ} (hx : r.slices.lookup region = some x) : ∃ i, x = o.slice i := by
  have hmem := OrderedMap.mem_entries_of_lookup hx
  rw [(entries_staticPartition h hname).1] at hmem
  obtain ⟨p, -, heq⟩ := List.mem_map.mp hmem
  exact ⟨p.2, (Prod.mk.inj heq).2.symm⟩

/-- A region has the slice at its index and the strategy built from it. -/
theorem lookup_of_mem (h : staticPartition o = .ok r) (hname : "__proto__" ∉ o.regions)
    {region : String} (hregion : region ∈ o.regions) :
    ∃ i, r.slices.lookup region = some (o.slice i) ∧
      ∃ strategy, o.strategyFactory (o.slice i) = .ok strategy ∧
        r.strategies.lookup region = some strategy := by
  obtain ⟨hslices, hbuilt⟩ := entries_staticPartition h hname
  obtain ⟨i, hi, rfl⟩ := List.mem_iff_getElem.mp hregion
  have hi' : i < o.regions.zipIdx.length := by rwa [List.length_zipIdx]
  have hget : o.regions.zipIdx.get ⟨i, hi'⟩ = (o.regions[i], i) := by simp
  refine ⟨i, OrderedMap.lookup_of_mem_entries ?_, ?_⟩
  · rw [hslices]
    exact List.mem_map.mpr ⟨(o.regions[i], i), hget ▸ List.get_mem _ _, rfl⟩
  · have he : i < r.strategies.entries.length := by rwa [← hbuilt.length_eq]
    obtain ⟨hkey, hstrategy⟩ := hbuilt.get hi' he
    rw [hget] at hkey hstrategy
    refine ⟨(r.strategies.entries.get ⟨i, he⟩).2, hstrategy, OrderedMap.lookup_of_mem_entries ?_⟩
    have hkey' : (r.strategies.entries.get ⟨i, he⟩).1 = o.regions[i] := hkey
    rw [← hkey']
    exact List.get_mem _ _

/-- The slices handed out make up the budget rounded up. -/
theorem sum_slices (h : staticPartition o = .ok r) (hname : "__proto__" ∉ o.regions) :
    (r.slices.sum fun _ x => x) = ⌈o.globalLimit⌉ := by
  obtain ⟨hacc, -⟩ := staticPartition_eq_ok.mp h
  rw [OrderedMap.sum, (entries_staticPartition h hname).1, List.map_map, ← sum_slice hacc]
  have hidx : List.range o.regions.length = o.regions.zipIdx.map Prod.snd := by
    rw [List.zipIdx_map_snd, List.range_eq_range']
  rw [hidx, List.map_map]
  rfl

/-! ### What is split exactly -/

/-- Exactly the whole budgets are split without handing out more than there is, over regions that
can all be told apart in a plain object. -/
theorem partitioned_iff (h : staticPartition o = .ok r) :
    Partitioned o r ↔ (⌊o.globalLimit⌋ : ℚ) = o.globalLimit ∧ "__proto__" ∉ o.regions := by
  obtain ⟨hacc, hbuild⟩ := staticPartition_eq_ok.mp h
  constructor
  · intro hp
    have hname : "__proto__" ∉ o.regions := by
      intro hmem
      obtain ⟨x, hx, -⟩ := hp.listed _ hmem
      rw [lookup_slices_proto _ _ _ hbuild] at hx
      cases hx
    refine ⟨?_, hname⟩
    have hsum := hp.sum
    rw [sum_slices h hname] at hsum
    refine le_antisymm (Int.floor_le _) ?_
    rw [← hsum]
    exact Int.le_ceil _
  · rintro ⟨hwhole, hname⟩
    refine ⟨?_, ?_, ?_, ?_, ?_⟩
    · intro region hregion
      obtain ⟨i, hslice, hstrategy⟩ := lookup_of_mem h hname hregion
      exact ⟨o.slice i, hslice, slice_pos hacc i, hstrategy⟩
    · rw [keys_slices h hname]
      exact fun _ hmem => hmem
    · rw [keys_strategies h hname]
      exact fun _ hmem => hmem
    · intro region x region' x' hx hx'
      obtain ⟨i, rfl⟩ := exists_slice_of_lookup h hname hx
      obtain ⟨j, rfl⟩ := exists_slice_of_lookup h hname hx'
      exact slice_le o i j
    · rw [sum_slices h hname, ← hwhole, Int.ceil_intCast, Int.floor_intCast]

theorem cast_limit_pos {limit : ℤ} (h : 0 < limit) : (0 : ℚ) < limit := Int.cast_pos.mpr h

/-- The fixed windows of one second, by their limit. -/
def perSecond (limit : ℤ) : Except ℤ (Strategy FixedWindow.State) :=
  if h : 0 < limit then
    .ok (FixedWindow.fixedWindow ⟨limit, 1000, cast_limit_pos h, second_pos⟩)
  else .error limit

theorem exists_perSecond {o : StaticPartitionOptions FixedWindow.State ℤ} (h : Accepted o)
    (hf : o.strategyFactory = perSecond) : ∃ r, staticPartition o = .ok r := by
  refine exists_staticPartition h fun i => ?_
  rw [hf, perSecond, dif_pos (slice_pos h i)]
  exact ⟨_, rfl⟩

/-- Three regions and a budget of 1000. -/
def thousand : StaticPartitionOptions FixedWindow.State ℤ :=
  ⟨1000, ["us-east", "eu-west", "ap-south"], perSecond⟩

theorem partitioned_thousand : ∃ r, staticPartition thousand = .ok r ∧
    r.slices.entries = [("us-east", 334), ("eu-west", 333), ("ap-south", 333)] ∧
    (Partitioned thousand r ↔
      (⌊thousand.globalLimit⌋ : ℚ) = thousand.globalLimit ∧ "__proto__" ∉ thousand.regions) := by
  obtain ⟨r, hr⟩ := exists_perSecond (o := thousand)
    ⟨by decide, by norm_num [thousand], by decide⟩ rfl
  refine ⟨r, hr, ?_, partitioned_iff hr⟩
  rw [(entries_staticPartition hr (by decide)).1]
  decide +kernel

/-- Two regions and a budget of ten and a half. -/
def tenAndAHalf : StaticPartitionOptions FixedWindow.State ℤ := ⟨21 / 2, ["a", "b"], perSecond⟩

/-- A budget of ten and a half hands out eleven. -/
theorem ten_and_a_half_overspent : ∃ r, staticPartition tenAndAHalf = .ok r ∧
    r.slices.entries = [("a", 6), ("b", 5)] ∧
    tenAndAHalf.globalLimit < (r.slices.sum fun _ x => x : ℤ) ∧ ¬ Partitioned tenAndAHalf r := by
  obtain ⟨r, hr⟩ := exists_perSecond (o := tenAndAHalf)
    ⟨by decide, by norm_num [tenAndAHalf], by decide⟩ rfl
  have hslices : r.slices.entries = [("a", 6), ("b", 5)] := by
    rw [(entries_staticPartition hr (by decide)).1]
    decide +kernel
  have hsum : (r.slices.sum fun _ x => x) = 11 := by
    rw [OrderedMap.sum, hslices]
    rfl
  have hfloor : ⌊tenAndAHalf.globalLimit⌋ = 10 := by decide +kernel
  refine ⟨r, hr, hslices, ?_, fun hp => ?_⟩
  · rw [hsum]
    norm_num [tenAndAHalf]
  · have hten := hp.sum
    rw [hsum, hfloor] at hten
    omega

end ThrottleKit.StaticPartition
