import Mathlib.Data.Rat.Floor
import ThrottleKit.Lib.FirstBest
import ThrottleKit.Multi.Dimensions

/-!
# The dimension that a composite reports

A composite reports one of its dimensions, the first of those that bind it. In process what a window
has left is rounded down before it is compared, and in the script after. So the two report different
dimensions where one before the tightest has as much left when rounded down, and more otherwise;
with their limits, and with ends that may be far apart.

## Main definitions

* `reported` — the result that is reported, and its place
* `Alike` — what the script and a strategy in process say of one dimension

## Main results

* `combine_eq_reported`
* `reported_snd_eq_iff` — when the same dimension is reported
-/

namespace ThrottleKit.Multi

/-- Whether a composite that allows, or denies, reports a result rather than another. -/
def better : Mode → Bool → Decision → Decision → Bool
  | .all, true => fun r b => r.remaining < b.remaining
  | .all, false => fun r b => r.retryAfterMs > b.retryAfterMs
  | .any, true => fun r b => r.remaining > b.remaining
  | .any, false => fun r b => r.retryAfterMs < b.retryAfterMs

/-- The results among which a composite that allows, or denies, finds the one it reports. -/
def eligible : Mode → Bool → Decision → Bool
  | .all, false => fun r => !r.allowed
  | .any, true => fun r => r.allowed
  | _, _ => fun _ => true

/-- The results among which the one that is reported is found, each with its place among the
dimensions. -/
def candidates (mode : Mode) (results : List Decision) : List (Decision × ℕ) :=
  results.zipIdx.filter fun r => eligible mode (mode.allows results) r.1

/-- The result that is reported, and its place. -/
def reported (mode : Mode) (results : List Decision) : Decision × ℕ :=
  match candidates mode results with
  | [] => (⟨false, 0, 0, 0, 0⟩, 0)
  | r :: rs => firstBest (fun r b => better mode (mode.allows results) r.1 b.1) r rs

theorem map_candidates (mode : Mode) (results : List Decision) :
    (candidates mode results).map Prod.fst
      = results.filter (eligible mode (mode.allows results)) := by
  generalize hallows : mode.allows results = allows
  have hfilter := List.filter_map (l := results.zipIdx) (f := Prod.fst)
    (p := eligible mode allows)
  rw [List.zipIdx_map_fst] at hfilter
  rw [candidates, hallows, hfilter]
  rfl

theorem binding_eq_reported (mode : Mode) (results : List Decision) :
    binding (better mode (mode.allows results))
        (results.filter (eligible mode (mode.allows results)))
      = (reported mode results).1 := by
  rw [← map_candidates, reported]
  cases candidates mode results with
  | nil => rfl
  | cons r rs => exact firstBest_map _ Prod.fst r rs

/-- **What a composite says is what it says of the result it reports.** -/
theorem combine_eq_reported (mode : Mode) (results : List Decision) :
    combine mode results
      = if mode.allows results then granted (reported mode results).1
        else refused (reported mode results).1 := by
  have hbinding := binding_eq_reported mode results
  cases mode <;> cases hallows : Mode.allows _ results <;> rw [hallows] at hbinding <;>
    simp only [combine, hallows, ← hbinding, better, eligible, List.filter_true] <;> rfl

/-- What the script and a strategy in process say of one dimension: the script does not round what
is left. -/
structure Alike (l r : Decision) : Prop where
  allowed : l.allowed = r.allowed
  limit : l.limit = r.limit
  remaining : (⌊l.remaining⌋ : ℚ) = r.remaining
  retryAfterMs : l.retryAfterMs = r.retryAfterMs
  retryAfterMs_whole : (⌊l.retryAfterMs⌋ : ℚ) = l.retryAfterMs
  nonneg : 0 ≤ l.remaining

/-- When the composite allows, none of the results before the one that is reported has as much left,
rounded down. -/
def Untied (mode : Mode) (results : List Decision) : Prop :=
  mode.allows results = true → ∀ r ∈ candidates mode results,
    r.2 < (reported mode results).2 → ⌊r.1.remaining⌋ ≠ ⌊(reported mode results).1.remaining⌋

instance (mode : Mode) (results : List Decision) : Decidable (Untied mode results) :=
  inferInstanceAs (Decidable (_ → _))

/-! ### Two lists of results -/

section Pairs

variable {mode : Mode} {ps : List (Decision × Decision)} {allows : Bool}

/-- The pairs whose results are candidates, with their places. -/
def pairCandidates (mode : Mode) (allows : Bool) (ps : List (Decision × Decision)) :
    List ((Decision × Decision) × ℕ) :=
  ps.zipIdx.filter fun p => eligible mode allows p.1.1

theorem pairCandidates_sorted :
    (pairCandidates mode allows ps).Pairwise fun p q => p.2 < q.2 := by
  have hplaces : (ps.zipIdx.map Prod.snd).Pairwise (· < ·) := by
    rw [List.zipIdx_map_snd]
    exact List.pairwise_lt_range'
  exact (List.pairwise_map.mp hplaces).filter _

theorem alike_of_mem (h : ∀ p ∈ ps, Alike p.1 p.2) :
    ∀ p ∈ pairCandidates mode allows ps, Alike p.1.1 p.1.2 := fun _ hp =>
  h _ (List.fst_mem_of_mem_zipIdx (List.mem_of_mem_filter hp))

theorem allows_eq (h : ∀ p ∈ ps, Alike p.1 p.2) :
    mode.allows (ps.map Prod.snd) = mode.allows (ps.map Prod.fst) := by
  have hsame : (ps.map Prod.snd).map (·.allowed) = (ps.map Prod.fst).map (·.allowed) := by
    rw [List.map_map, List.map_map]
    exact List.map_congr_left fun p hp => (h p hp).allowed.symm
  cases mode with
  | all =>
    have hall := congrArg (List.all · id) hsame
    simpa only [Mode.allows, List.all_map, Function.id_comp] using hall
  | any =>
    have hany := congrArg (List.any · id) hsame
    simpa only [Mode.allows, List.any_map, Function.id_comp] using hany

theorem candidates_fst :
    candidates mode (ps.map Prod.fst)
      = (pairCandidates mode (mode.allows (ps.map Prod.fst)) ps).map (Prod.map Prod.fst id) := by
  rw [candidates, List.zipIdx_map, List.filter_map]
  rfl

theorem candidates_snd (h : ∀ p ∈ ps, Alike p.1 p.2) :
    candidates mode (ps.map Prod.snd)
      = (pairCandidates mode (mode.allows (ps.map Prod.fst)) ps).map (Prod.map Prod.snd id) := by
  rw [candidates, List.zipIdx_map, List.filter_map, allows_eq h, pairCandidates]
  refine congrArg (List.map _) (List.filter_congr fun p hp => ?_)
  have halike := h p.1 (List.fst_mem_of_mem_zipIdx hp)
  show eligible mode _ p.1.2 = eligible mode _ p.1.1
  cases mode <;> cases Mode.allows _ (ps.map Prod.fst) <;> simp [eligible, halike.allowed]

/-- The results of one or more dimensions have a candidate among them. -/
theorem candidates_ne_nil {results : List Decision} (hne : results ≠ []) :
    candidates mode results ≠ [] := by
  have hsome : ∃ r ∈ results, eligible mode (mode.allows results) r = true := by
    cases mode <;> cases hallows : Mode.allows _ results
    · obtain ⟨r, hr, hdenies⟩ := List.all_eq_false.mp hallows
      exact ⟨r, hr, by simpa [eligible] using hdenies⟩
    · exact ⟨results.head hne, List.head_mem hne, rfl⟩
    · exact ⟨results.head hne, List.head_mem hne, rfl⟩
    · exact List.any_eq_true.mp hallows
  obtain ⟨r, hr, heligible⟩ := hsome
  intro hnil
  have hmem : r ∈ results.filter (eligible mode (mode.allows results)) :=
    List.mem_filter.mpr ⟨hr, heligible⟩
  rw [← map_candidates, hnil] at hmem
  exact absurd hmem List.not_mem_nil

section Compared

variable {c : (Decision × Decision) × ℕ} {cs : List ((Decision × Decision) × ℕ)}
  {B : Type} [LinearOrder B]

/-- Comparing by values that do not differ in a pair ends with the same pair. -/
theorem firstBest_pairs_eq_of_eq (value : Decision → B)
    (hbetter : ∀ r b, better mode allows r b = true ↔ value r < value b)
    (hsame : ∀ p ∈ c :: cs, value p.1.1 = value p.1.2)
    (hsorted : (c :: cs).Pairwise fun p q => p.2 < q.2) :
    firstBest (fun r b => better mode allows r.1.1 b.1.1) c cs
      = firstBest (fun r b => better mode allows r.1.2 b.1.2) c cs := by
  have hfirst : IsFirstBest Prod.snd (fun p => value p.1.1) (c :: cs)
      (firstBest (fun r b => better mode allows r.1.1 b.1.1) c cs) :=
    isFirstBest_firstBest (fun r b => hbetter _ _) hsorted
  refine (firstBest_eq_firstBest_iff (f := fun p => value p.1.1) (g := fun p => value p.1.2)
    (fun r b => hbetter _ _) (fun r b => hbetter _ _) ?_ hsorted).mpr ?_
  · intro p hp q hq hle
    rwa [← hsame p hp, ← hsame q hq]
  · intro p hp hlt
    rw [← hsame p hp, ← hsame _ hfirst.mem]
    exact (hfirst.lt p hp hlt).ne'

/-- Comparing by what is left ends with the same pair where no earlier one has as much left, rounded
down. -/
theorem firstBest_pairs_eq_iff_floor (value : Decision → B)
    (hbetter : ∀ r b, better mode allows r b = true ↔ value r < value b)
    (hmono : ∀ p ∈ c :: cs, ∀ q ∈ c :: cs, value p.1.1 ≤ value q.1.1 → value p.1.2 ≤ value q.1.2)
    (hvalue : ∀ p ∈ c :: cs, ∀ q ∈ c :: cs,
      value p.1.2 = value q.1.2 ↔ ⌊p.1.1.remaining⌋ = ⌊q.1.1.remaining⌋)
    (hsorted : (c :: cs).Pairwise fun p q => p.2 < q.2) :
    firstBest (fun r b => better mode allows r.1.1 b.1.1) c cs
        = firstBest (fun r b => better mode allows r.1.2 b.1.2) c cs ↔
      ∀ p ∈ c :: cs,
        p.2 < (firstBest (fun r b => better mode allows r.1.1 b.1.1) c cs).2 →
          ⌊p.1.1.remaining⌋
            ≠ ⌊(firstBest (fun r b => better mode allows r.1.1 b.1.1) c cs).1.1.remaining⌋ := by
  have hfirst : IsFirstBest Prod.snd (fun p => value p.1.1) (c :: cs)
      (firstBest (fun r b => better mode allows r.1.1 b.1.1) c cs) :=
    isFirstBest_firstBest (fun r b => hbetter _ _) hsorted
  rw [firstBest_eq_firstBest_iff (f := fun p => value p.1.1) (g := fun p => value p.1.2)
    (fun r b => hbetter _ _) (fun r b => hbetter _ _) hmono hsorted]
  exact forall₂_congr fun p hp => imp_congr_right fun _ => not_congr (hvalue p hp _ hfirst.mem)

/-- **When both comparisons end with the same pair**, in either mode: always where the composite
denies. -/
theorem firstBest_pairs_eq_iff (halike : ∀ p ∈ c :: cs, Alike p.1.1 p.1.2)
    (hsorted : (c :: cs).Pairwise fun p q => p.2 < q.2) :
    firstBest (fun r b => better mode allows r.1.1 b.1.1) c cs
        = firstBest (fun r b => better mode allows r.1.2 b.1.2) c cs ↔
      (allows = true → ∀ p ∈ c :: cs,
        p.2 < (firstBest (fun r b => better mode allows r.1.1 b.1.1) c cs).2 →
          ⌊p.1.1.remaining⌋
            ≠ ⌊(firstBest (fun r b => better mode allows r.1.1 b.1.1) c cs).1.1.remaining⌋) := by
  have hfloor : ∀ p ∈ c :: cs, p.1.2.remaining = (⌊p.1.1.remaining⌋ : ℚ) := fun p hp =>
    (halike p hp).remaining.symm
  have hretry : ∀ p ∈ c :: cs, p.1.1.retryAfterMs = p.1.2.retryAfterMs := fun p hp =>
    (halike p hp).retryAfterMs
  have hmono : ∀ p ∈ c :: cs, ∀ q ∈ c :: cs, p.1.1.remaining ≤ q.1.1.remaining →
      p.1.2.remaining ≤ q.1.2.remaining := by
    intro p hp q hq hle
    rw [hfloor p hp, hfloor q hq, Int.cast_le]
    exact Int.floor_mono hle
  have hvalue : ∀ p ∈ c :: cs, ∀ q ∈ c :: cs, p.1.2.remaining = q.1.2.remaining ↔
      ⌊p.1.1.remaining⌋ = ⌊q.1.1.remaining⌋ := by
    intro p hp q hq
    rw [hfloor p hp, hfloor q hq, Int.cast_inj]
  cases allows with
  | true =>
    rw [forall_prop_of_true rfl]
    cases mode with
    | all =>
      exact firstBest_pairs_eq_iff_floor Decision.remaining
        (fun r b => decide_eq_true_iff) hmono hvalue hsorted
    | any =>
      exact firstBest_pairs_eq_iff_floor (fun d => OrderDual.toDual d.remaining)
        (fun r b => decide_eq_true_iff) (fun p hp q hq hle => hmono q hq p hp hle) hvalue hsorted
  | false =>
    refine iff_of_true ?_ fun h => absurd h Bool.false_ne_true
    cases mode with
    | all =>
      exact firstBest_pairs_eq_of_eq (fun d => OrderDual.toDual d.retryAfterMs)
        (fun r b => decide_eq_true_iff) hretry hsorted
    | any =>
      exact firstBest_pairs_eq_of_eq Decision.retryAfterMs
        (fun r b => decide_eq_true_iff) hretry hsorted

end Compared

/-- **When the same dimension is reported**, and what is reported is the pair at its place. -/
theorem reported_pairs (mode : Mode) (hne : ps ≠ []) (h : ∀ p ∈ ps, Alike p.1 p.2) :
    ((reported mode (ps.map Prod.fst)).2 = (reported mode (ps.map Prod.snd)).2 ↔
      Untied mode (ps.map Prod.fst)) ∧
    ((reported mode (ps.map Prod.fst)).2 = (reported mode (ps.map Prod.snd)).2 →
      ∃ p, ps[(reported mode (ps.map Prod.fst)).2]? = some p ∧
        (reported mode (ps.map Prod.fst)).1 = p.1 ∧
          (reported mode (ps.map Prod.snd)).1 = p.2) := by
  have hallows : mode.allows (ps.map Prod.snd) = mode.allows (ps.map Prod.fst) := allows_eq h
  obtain ⟨allows, hdef⟩ : ∃ allows, mode.allows (ps.map Prod.fst) = allows := ⟨_, rfl⟩
  have hfst : candidates mode (ps.map Prod.fst)
      = (pairCandidates mode allows ps).map (Prod.map Prod.fst id) := hdef ▸ candidates_fst
  have hsnd : candidates mode (ps.map Prod.snd)
      = (pairCandidates mode allows ps).map (Prod.map Prod.snd id) := hdef ▸ candidates_snd h
  have hnil : candidates mode (ps.map Prod.fst) ≠ [] := candidates_ne_nil (by simpa using hne)
  have halike : ∀ p ∈ pairCandidates mode allows ps, Alike p.1.1 p.1.2 := alike_of_mem h
  have hsorted : (pairCandidates mode allows ps).Pairwise fun p q => p.2 < q.2 :=
    pairCandidates_sorted
  have hplaced : ∀ p ∈ pairCandidates mode allows ps, ps[p.2]? = some p.1 := fun p hp =>
    List.mem_zipIdx_iff_getElem?.mp (List.mem_of_mem_filter hp)
  cases hcands : pairCandidates mode allows ps with
  | nil =>
    rw [hcands] at hfst
    exact absurd hfst hnil
  | cons c cs =>
    rw [hcands] at hfst hsnd halike hsorted hplaced
    have hleft : reported mode (ps.map Prod.fst) = Prod.map Prod.fst id
        (firstBest (fun r b => better mode allows r.1.1 b.1.1) c cs) := by
      rw [reported, hfst, hdef, List.map_cons]
      exact firstBest_map _ (Prod.map Prod.fst id) c cs
    have hright : reported mode (ps.map Prod.snd) = Prod.map Prod.snd id
        (firstBest (fun r b => better mode allows r.1.2 b.1.2) c cs) := by
      rw [reported, hsnd, hallows, hdef, List.map_cons]
      exact firstBest_map _ (Prod.map Prod.snd id) c cs
    have hiff : _ = firstBest (fun r b => better mode allows r.1.2 b.1.2) c cs ↔ _ :=
      firstBest_pairs_eq_iff halike hsorted
    have hmem := firstBest_mem (fun r b => better mode allows r.1.1 b.1.1) c cs
    have hmem' := firstBest_mem (fun r b => better mode allows r.1.2 b.1.2) c cs
    rw [Untied, hfst, hleft, hright, hdef]
    generalize firstBest (fun r b => better mode allows r.1.1 b.1.1) c cs = b at hiff hmem ⊢
    generalize firstBest (fun r b => better mode allows r.1.2 b.1.2) c cs = b' at hiff hmem' ⊢
    -- a place in the list is the place of one pair
    have hsame : b.2 = b'.2 ↔ b = b' := by
      refine ⟨fun hplace => Prod.ext ?_ hplace, congrArg Prod.snd⟩
      have hb := hplaced b hmem
      rw [hplace, hplaced b' hmem'] at hb
      exact (Option.some.inj hb).symm
    refine ⟨hsame.trans (hiff.trans (imp_congr_right fun _ => ?_)), fun hplace => ?_⟩
    · rw [List.forall_mem_map]
      rfl
    · obtain rfl := hsame.mp hplace
      exact ⟨b.1, hplaced b hmem, rfl, rfl⟩

end Pairs

end ThrottleKit.Multi
