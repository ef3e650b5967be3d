import ThrottleKit.Core.Types
import ThrottleKit.Lib.StructuredFields

/-!
# Rate-limit response headers

The headers of a decision in their three families. The `structured` family quotes the policy name as
a string of RFC 9651, with the numbers of the decision for its parameters.

`sanitizePolicyName` drops the control characters below the space and `DEL`, and escapes quotes and
backslashes. What is not ASCII is left in, and a structured field that is not ASCII is refused as a
whole. So is one with an integer of more than 15 digits.

## Main definitions

* `NumberText` — how numbers are written
* `buildRateLimitHeaders` — the headers
* `WellFormed` — both structured fields are lists of the one item that they are to be

## Main results

* `wellFormed_iff` — exactly for an ASCII name and numbers of at most 15 digits

## What is left out

The system clock as the default of `now`.
-/

namespace ThrottleKit.Headers

open StructuredFields

/-- `String(x)`, as far as the grammar of structured fields depends on it: integers below `10^15`
have their digits, larger ones more digits than the grammar allows, or an exponent. -/
structure NumberText where
  text : ℚ → List Char
  short : ∀ n : ℕ, n < 10 ^ 15 → text n = Nat.toDigits 10 n
  long : ∀ n : ℕ, 10 ^ 15 ≤ n → Long (text n)

/-- Which header families to emit. -/
structure HeaderEmit where
  draft : Bool
  structured : Bool
  legacy : Bool

/-- The options of `buildRateLimitHeaders`. -/
structure BuildRateLimitHeadersOptions where
  policyName : Option (List Char)
  /-- Window length in seconds. -/
  windowSeconds : Option ℚ
  emit : Option HeaderEmit

/-- The headers, in the order in which they are set. -/
abbrev Fields := List (String × List Char)

/-- Seconds until the limiter is fully replenished, clamped at zero. -/
def resetDeltaSeconds (decision : Decision) (now : ℚ) : ℤ :=
  max 0 ⌈(decision.resetAt - now) / 1000⌉

/-- A control character below the space, or `DEL`. -/
def isDropped (c : Char) : Bool := c.toNat < 0x20 || c.toNat = 0x7f

/-- `sanitizePolicyName(name)`. -/
def sanitizePolicyName : List Char → List Char
  | [] => []
  | c :: name =>
    if isDropped c then sanitizePolicyName name
    else if c = '"' ∨ c = '\\' then '\\' :: c :: sanitizePolicyName name
    else c :: sanitizePolicyName name

variable (nums : NumberText)

/-- `"${policy}";${key}=${x}`. -/
def quoted (policy : List Char) (key : Char) (x : ℚ) : List Char :=
  '"' :: (policy ++ '"' :: ';' :: key :: '=' :: nums.text x)

/-- `buildRateLimitHeaders(decision, opts)` at `now`. -/
def buildRateLimitHeaders (decision : Decision) (opts : BuildRateLimitHeadersOptions) (now : ℚ) :
    Fields :=
  let emit := opts.emit.getD ⟨true, false, false⟩
  let t := resetDeltaSeconds decision now
  let policy := sanitizePolicyName (opts.policyName.getD "default".toList)
  (if emit.draft then
    [("RateLimit-Limit", nums.text decision.limit),
      ("RateLimit-Remaining", nums.text decision.remaining),
      ("RateLimit-Reset", nums.text t)]
  else []) ++
  (if emit.structured then
    [("RateLimit", quoted nums policy 'r' decision.remaining ++ ';' :: 't' :: '=' :: nums.text t),
      ("RateLimit-Policy", quoted nums policy 'q' decision.limit ++
        match opts.windowSeconds with
        | some w => ';' :: 'w' :: '=' :: nums.text w
        | none => [])]
  else []) ++
  (if emit.legacy then
    [("X-RateLimit-Limit", nums.text decision.limit),
      ("X-RateLimit-Remaining", nums.text decision.remaining),
      ("X-RateLimit-Reset", nums.text ⌈decision.resetAt / 1000⌉)]
  else []) ++
  if decision.allowed = false then
    [("Retry-After", nums.text (max 1 ⌈decision.retryAfterMs / 1000⌉))]
  else []

/-! ### Well-formed fields -/

/-- A control character. -/
def isControl (c : Char) : Bool := c.toNat < 0x20 || (0x7f ≤ c.toNat && c.toNat < 0xa0)

/-- The field is there, is a list of one item, the name with these parameters, and has no control
character. -/
def IsField (headers : Fields) (field : String) (name : List Char)
    (params : List (List Char × ℕ)) : Prop :=
  ∃ value, headers.lookup field = some value ∧
    parseList value = some [.item ⟨.string (name.filter fun c => !isControl c),
      params.map fun p => (p.1, .integer p.2)⟩] ∧
    ∀ c ∈ value, isControl c = false

/-- The parameters of `RateLimit`. -/
def rateParams (r t : ℕ) : List (List Char × ℕ) := [(['r'], r), (['t'], t)]

/-- The parameters of `RateLimit-Policy`. -/
def policyParams (q : ℕ) (w : Option ℕ) : List (List Char × ℕ) :=
  (['q'], q) :: (w.map fun w => (['w'], w)).toList

/-- Both structured fields are what they are to be. -/
structure WellFormed (headers : Fields) (name : List Char) (r t q : ℕ) (w : Option ℕ) : Prop where
  rateLimit : IsField headers "RateLimit" name (rateParams r t)
  policy : IsField headers "RateLimit-Policy" name (policyParams q w)

/-- The name without what is dropped. -/
def kept (name : List Char) : List Char := name.filter fun c => !isDropped c

theorem sanitizePolicyName_eq (name : List Char) :
    sanitizePolicyName name = (kept name).flatMap escape := by
  induction name with
  | nil => rfl
  | cons c name ih =>
    rw [sanitizePolicyName, kept, ih]
    split_ifs with hdropped hspecial
    · simp [hdropped, kept]
    · simp [hdropped, kept, escape, hspecial]
    · simp [hdropped, kept, escape, hspecial]

theorem kept_range (name : List Char) : ∀ c ∈ kept name, 0x20 ≤ c.toNat ∧ c.toNat ≠ 0x7f := by
  intro c hc
  have hnot := (List.mem_filter.mp hc).2
  simp only [isDropped, Bool.not_eq_true', Bool.or_eq_false_iff, decide_eq_false_iff_not,
    not_lt] at hnot
  exact hnot

/-- In ASCII, what is dropped are the control characters. -/
theorem kept_eq {name : List Char} (h : ∀ c ∈ name, isAscii c = true) :
    kept name = name.filter fun c => !isControl c := by
  refine List.filter_congr fun c hc => ?_
  have hlt := of_decide_eq_true (h c hc)
  congr 1
  rw [Bool.eq_iff_iff]
  simp only [isDropped, isControl, Bool.or_eq_true, Bool.and_eq_true, decide_eq_true_eq]
  omega

theorem mem_kept {name : List Char} {c : Char} (hc : c ∈ name) (h : isAscii c = false) :
    c ∈ kept name := by
  have hge := of_decide_eq_false h
  refine List.mem_filter.mpr ⟨hc, ?_⟩
  simp only [isDropped, Bool.not_eq_true', Bool.or_eq_false_iff, decide_eq_false_iff_not]
  omega

/-- A visible character is no control character. -/
theorem isControl_of_isVisible {c : Char} (h : isVisible c = true) : isControl c = false := by
  rw [isVisible, Bool.and_eq_true, decide_eq_true_eq, decide_eq_true_eq] at h
  simp only [isControl, Bool.or_eq_false_iff, Bool.and_eq_false_iff, decide_eq_false_iff_not]
  omega

/-! ### The fields that are printed -/

theorem isKey_singleton {c : Char} (h : isKeyStart c = true) : IsKey [c] := ⟨c, [], rfl, h, rfl⟩

/-- The text of a field: the name with parameters. -/
def fieldText (name : List Char) (params : List (List Char × ℕ)) : List Char :=
  printString (kept name) ++ printParameters (params.map fun p => (p.1, nums.text p.2))

variable {nums}

/-- A printed field is well formed exactly when the name is ASCII and the numbers are short. -/
theorem isField_iff {headers : Fields} {field : String} {name : List Char}
    {params : List (List Char × ℕ)}
    (hlookup : headers.lookup field = some (fieldText nums name params))
    (hkeys : ∀ p ∈ params, IsKey p.1) (hnodup : (params.map Prod.fst).Nodup) :
    IsField headers field name params ↔
      (∀ c ∈ name, isAscii c = true) ∧ ∀ p ∈ params, p.2 < 10 ^ 15 := by
  have hiff := @parseList_eq_some_iff (fun n => nums.text n) nums.short nums.long _
    (kept_range name) _ hkeys hnodup
  constructor
  · rintro ⟨value, hvalue, hparse, -⟩
    rw [hlookup] at hvalue
    obtain rfl := Option.some.inj hvalue
    have hascii : ∀ c ∈ name, isAscii c = true := by
      intro c hc
      by_contra hnot
      rw [Bool.not_eq_true] at hnot
      have hall : (fieldText nums name params).all isAscii = false :=
        List.all_eq_false.mpr ⟨c, List.mem_append_left _ (mem_printString (mem_kept hc hnot)),
          by simp [hnot]⟩
      rw [parseList_of_not_ascii hall] at hparse
      cases hparse
    rw [← kept_eq hascii] at hparse
    exact ⟨hascii, (hiff.mp hparse).2⟩
  · rintro ⟨hascii, hshort⟩
    have hkept : ∀ c ∈ kept name, isAscii c = true := fun c hc => hascii c (List.mem_filter.mp hc).1
    have hparse := hiff.mpr ⟨hkept, hshort⟩
    rw [kept_eq hascii] at hparse
    refine ⟨_, hlookup, ?_, fun c hc => ?_⟩
    · rw [fieldText, kept_eq hascii]
      exact hparse
    · have htexts : (params.map fun p => (p.1, nums.text p.2))
          = params.map fun p => (p.1, Nat.toDigits 10 p.2) :=
        List.map_congr_left fun p hp => by rw [nums.short p.2 (hshort p hp)]
      rw [fieldText, htexts] at hc
      exact isControl_of_isVisible (List.all_eq_true.mp
        (isVisible_print (all_isVisible (kept_range name) hkept) hkeys) c hc)

variable {decision : Decision} {opts : BuildRateLimitHeadersOptions} {now : ℚ}

/-- The name of the policy. -/
def BuildRateLimitHeadersOptions.name (opts : BuildRateLimitHeadersOptions) : List Char :=
  opts.policyName.getD "default".toList

/-- The families that are emitted include the structured fields. -/
def BuildRateLimitHeadersOptions.Structured (opts : BuildRateLimitHeadersOptions) : Prop :=
  (opts.emit.getD ⟨true, false, false⟩).structured = true

theorem lookup_rateLimit (hemit : opts.Structured) {r t : ℕ} (hr : decision.remaining = r)
    (ht : resetDeltaSeconds decision now = t) :
    (buildRateLimitHeaders nums decision opts now).lookup "RateLimit"
      = some (fieldText nums opts.name (rateParams r t)) := by
  have hemit' : (opts.emit.getD ⟨true, false, false⟩).structured = true := hemit
  unfold buildRateLimitHeaders
  dsimp only
  rw [hemit', hr, ht]
  cases (opts.emit.getD ⟨true, false, false⟩).draft <;>
    simp [fieldText, quoted, sanitizePolicyName_eq, printString, printParameters, rateParams,
      BuildRateLimitHeadersOptions.name, List.lookup_cons]

theorem lookup_policy (hemit : opts.Structured) {q : ℕ} {w : Option ℕ} (hq : decision.limit = q)
    (hw : opts.windowSeconds = w.map fun w => (w : ℚ)) :
    (buildRateLimitHeaders nums decision opts now).lookup "RateLimit-Policy"
      = some (fieldText nums opts.name (policyParams q w)) := by
  have hemit' : (opts.emit.getD ⟨true, false, false⟩).structured = true := hemit
  unfold buildRateLimitHeaders
  dsimp only
  rw [hemit', hq, hw]
  cases (opts.emit.getD ⟨true, false, false⟩).draft <;> cases w <;>
    simp [fieldText, quoted, sanitizePolicyName_eq, printString, printParameters, policyParams,
      BuildRateLimitHeadersOptions.name, List.lookup_cons]

/-- **Exactly ASCII names and numbers of at most 15 digits give well-formed structured fields**, for
a decision with non-negative integers. -/
theorem wellFormed_iff (hemit : opts.Structured) {r q : ℕ} {w : Option ℕ}
    (hr : decision.remaining = r) (hq : decision.limit = q)
    (hw : opts.windowSeconds = w.map fun w => (w : ℚ)) :
    WellFormed (buildRateLimitHeaders nums decision opts now) opts.name r
        (resetDeltaSeconds decision now).toNat q w ↔
      (∀ c ∈ opts.name, c.toNat < 0x80) ∧ r < 10 ^ 15 ∧ resetDeltaSeconds decision now < 10 ^ 15 ∧
        q < 10 ^ 15 ∧ ∀ x ∈ w, x < 10 ^ 15 := by
  have ht : resetDeltaSeconds decision now = ((resetDeltaSeconds decision now).toNat : ℤ) :=
    (Int.toNat_of_nonneg (le_max_left _ _)).symm
  have hascii : (∀ c ∈ opts.name, isAscii c = true) ↔ ∀ c ∈ opts.name, c.toNat < 0x80 := by
    simp only [isAscii, decide_eq_true_eq]
  have hrate := isField_iff (@lookup_rateLimit nums _ _ now hemit _ _ hr ht)
    (by simp [rateParams, isKey_singleton, isKeyStart]) (by simp [rateParams])
  have hpolicy := isField_iff (@lookup_policy nums _ _ now hemit _ _ hq hw)
    (by cases w <;> simp [policyParams, isKey_singleton, isKeyStart])
    (by cases w <;> simp [policyParams])
  have ht' : (resetDeltaSeconds decision now).toNat < 10 ^ 15
      ↔ resetDeltaSeconds decision now < 10 ^ 15 := by omega
  rw [hascii] at hrate hpolicy
  constructor
  · rintro ⟨hr', hq'⟩
    obtain ⟨hname, hrates⟩ := hrate.mp hr'
    obtain ⟨-, hpolicies⟩ := hpolicy.mp hq'
    refine ⟨hname, hrates (['r'], r) (by simp [rateParams]),
      ht'.mp (hrates (['t'], (resetDeltaSeconds decision now).toNat) (by simp [rateParams])),
      hpolicies (['q'], q) (by simp [policyParams]), ?_⟩
    rintro x rfl
    exact hpolicies (['w'], x) (by simp [policyParams])
  · rintro ⟨hname, hr', hreset, hq', hw'⟩
    refine ⟨hrate.mpr ⟨hname, ?_⟩, hpolicy.mpr ⟨hname, ?_⟩⟩
    · simp only [rateParams, List.mem_cons, List.not_mem_nil, or_false, forall_eq_or_imp, forall_eq]
      exact ⟨hr', ht'.mpr hreset⟩
    · cases w with
      | none => simpa [policyParams] using hq'
      | some x => simpa [policyParams] using ⟨hq', hw' x rfl⟩

/-! ### Two decisions -/

/-- All integers by their digits. -/
def decimal : NumberText where
  text x := Nat.toDigits 10 ⌊x⌋₊
  short n _ := by rw [Nat.floor_natCast]
  long n hn := by
    rw [Nat.floor_natCast]
    refine .digits (toDigits_isDigit n) ?_
    by_contra hlt
    have hle := (Nat.length_toDigits_le_iff (b := 10) (n := n) (k := 15) (by decide)
      (by decide)).mp (by omega)
    omega

/-- The structured fields alone. -/
def structuredOnly (policyName : List Char) : BuildRateLimitHeadersOptions :=
  ⟨some policyName, some 60, some ⟨false, true, false⟩⟩

/-- Half of a hundred units are left. -/
def halfLeft : Decision := ⟨true, 100, 50, 30000, 0⟩

theorem wellFormed_halfLeft :
    WellFormed (buildRateLimitHeaders decimal halfLeft (structuredOnly "a\"\nb".toList) 0)
        (structuredOnly "a\"\nb".toList).name 50 (resetDeltaSeconds halfLeft 0).toNat 100
          (some 60) ↔
      (∀ c ∈ (structuredOnly "a\"\nb".toList).name, c.toNat < 0x80) ∧ 50 < 10 ^ 15 ∧
        resetDeltaSeconds halfLeft 0 < 10 ^ 15 ∧ 100 < 10 ^ 15 ∧
        ∀ x ∈ (some 60 : Option ℕ), x < 10 ^ 15 :=
  wellFormed_iff (by rfl) (by norm_num [halfLeft]) (by norm_num [halfLeft]) rfl

/-- A name that is not ASCII, and the limit of an axis that is not there, the largest integer that
is safe: neither is a list. -/
theorem not_wellFormed :
    ((buildRateLimitHeaders decimal halfLeft (structuredOnly "caf\u00e9".toList) 0).lookup
        "RateLimit").bind parseList = none ∧
      ((buildRateLimitHeaders decimal { halfLeft with limit := maxSafeInteger }
        (structuredOnly "gcra".toList) 0).lookup "RateLimit-Policy").bind parseList = none := by
  decide +kernel

end ThrottleKit.Headers
