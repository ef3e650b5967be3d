import Mathlib.Algebra.Module.LinearMap.Defs
import Mathlib.Algebra.Module.Prod
import Mathlib.Algebra.Order.Field.Basic
import Mathlib.Data.Finset.Max
import Mathlib.Data.Fintype.Card
import Mathlib.Data.Set.Finite.Lemmas
import Mathlib.Tactic.FieldSimp
import Mathlib.Tactic.Linarith
import Mathlib.Tactic.LinearCombination
import Mathlib.Tactic.Module
import Mathlib.Tactic.Ring

/-!
# The vertex theorem for an arrangement of planes

Finitely many planes cut a space into cells. A function that is affine on every cell, and bounded
below on a region that some of the planes bound, gets no lower anywhere in the region than at a
vertex of it: a point at which the planes through it leave no direction free.

From a point that is no vertex there is a direction along all planes through it. A region without a
whole line has a plane ahead in that direction or in the opposite one. Between the first planes that
are met on either side the function is affine, so it is no higher at one of them; where no plane is
met on one side, the bound from below makes it no higher on the other. At the plane that is met one
more plane goes through the point, and there are finitely many.

## Main definitions

* `OnPlane`, `SameSide`, `IsVertex` — points and planes
* `AffineOnCells` — the function
* `Region` — the points on the inner side of some of the planes

## Main results

* `exists_tighter` — one more plane through a point that is no higher
* `exists_vertex_le` — the vertex theorem
* `exists_least` — a vertex at which the function is least
* `IsVertex.exists_pair`, `IsVertex.exists_triple` — planes that meet in a vertex, in two and in
  three dimensions
-/

namespace Arrangement

variable {K V ι : Type*} [Field K] [LinearOrder K] [AddCommGroup V] [Module K V]
  (f : ι → V →ₗ[K] K) (b : ι → K)

/-- Plane `i` goes through the point. -/
def OnPlane (p : V) (i : ι) : Prop := f i p = b i

/-- No plane passes between the two points. -/
def SameSide (p q : V) : Prop := ∀ i, b i ≤ f i p ∧ b i ≤ f i q ∨ f i p ≤ b i ∧ f i q ≤ b i

/-- The planes through the point leave no direction free. -/
def IsVertex (p : V) : Prop := ∀ u, (∀ i, OnPlane f b p i → f i u = 0) → u = 0

/-- The function is affine between points that no plane separates. -/
def AffineOnCells (F : V → K) : Prop :=
  ∀ p q, SameSide f b p q → ∀ t, 0 ≤ t → t ≤ 1 → F (p + t • (q - p)) = F p + t * (F q - F p)

/-- The points on the inner side of the planes of `S`. -/
def Region (S : Set ι) (p : V) : Prop := ∀ i ∈ S, b i ≤ f i p

variable {f b} {F : V → K} {S : Set ι} {p q r u : V} {t : K}

omit [LinearOrder K] in
theorem apply_add_smul (i : ι) (p u : V) (t : K) : f i (p + t • u) = f i p + t * f i u := by
  rw [map_add, map_smul, smul_eq_mul]

/-! ### Functions that are affine on cells -/

theorem AffineOnCells.add {G : V → K} (hF : AffineOnCells f b F) (hG : AffineOnCells f b G) :
    AffineOnCells f b fun p => F p + G p := by
  intro p q hpq t h0 h1
  show F _ + G _ = _
  rw [hF p q hpq t h0 h1, hG p q hpq t h0 h1]
  ring

theorem AffineOnCells.const_mul (hF : AffineOnCells f b F) (a : K) :
    AffineOnCells f b fun p => a * F p := by
  intro p q hpq t h0 h1
  show a * F _ = _
  rw [hF p q hpq t h0 h1]
  ring

theorem affineOnCells_linear (g : V →ₗ[K] K) : AffineOnCells f b g := by
  intro p q _ t _ _
  rw [map_add, map_smul, map_sub, smul_eq_mul]

theorem affineOnCells_sum {α : Type*} (l : List α) (G : α → V → K)
    (hG : ∀ x ∈ l, AffineOnCells f b (G x)) : AffineOnCells f b fun p => (l.map (G · p)).sum := by
  induction l with
  | nil =>
    intro p q _ t _ _
    show (0 : K) = 0 + t * (0 - 0)
    rw [sub_self, mul_zero, add_zero]
  | cons x l ih =>
    have hrest := ih fun y hy => hG y (List.mem_cons_of_mem _ hy)
    intro p q hpq t h0 h1
    simp only [List.map_cons, List.sum_cons]
    exact ((hG x List.mem_cons_self).add hrest) p q hpq t h0 h1

/-! ### Along the planes through a point -/

/-- Points on either side of `p` along the planes through it. -/
theorem sameSide_of_opposite (hfree : ∀ i, OnPlane f b p i → f i u = 0) {t' : K}
    (hq : SameSide f b p (p + t • u)) (hr : SameSide f b p (p + t' • u)) :
    SameSide f b (p + t • u) (p + t' • u) := by
  intro i
  by_cases htight : OnPlane f b p i
  · left
    rw [apply_add_smul, apply_add_smul, hfree i htight, mul_zero, mul_zero, add_zero]
    exact ⟨htight.ge, htight.ge⟩
  · rcases lt_or_gt_of_ne htight with hlt | hlt
    · exact .inr ⟨((hq i).resolve_left fun h => absurd h.1 (not_le.mpr hlt)).2,
        ((hr i).resolve_left fun h => absurd h.1 (not_le.mpr hlt)).2⟩
    · exact .inl ⟨((hq i).resolve_right fun h => absurd h.1 (not_le.mpr hlt)).2,
        ((hr i).resolve_right fun h => absurd h.1 (not_le.mpr hlt)).2⟩

/-- The inner side is not left before a plane is crossed. -/
theorem Region.of_sameSide (hp : Region f b S p) (hfree : ∀ i, OnPlane f b p i → f i u = 0)
    (h : SameSide f b p (p + t • u)) : Region f b S (p + t • u) := by
  intro i hi
  by_cases htight : OnPlane f b p i
  · rw [apply_add_smul, hfree i htight, mul_zero, add_zero]
    exact hp i hi
  · have hlt : b i < f i p := lt_of_le_of_ne (hp i hi) (Ne.symm htight)
    exact ((h i).resolve_right fun hle => absurd hle.1 (not_le.mpr hlt)).2

omit [LinearOrder K] in
theorem OnPlane.of_free (hfree : ∀ i, OnPlane f b p i → f i u = 0) {i : ι} (h : OnPlane f b p i) :
    OnPlane f b (p + t • u) i := by
  rw [OnPlane, apply_add_smul, hfree i h, mul_zero, add_zero]
  exact h

variable [IsStrictOrderedRing K]

/-- How far a point is below a plane. -/
theorem affineOnCells_max (i : ι) : AffineOnCells f b fun p => max 0 (b i - f i p) := by
  intro p q hpq t h0 h1
  have hstep : f i (p + t • (q - p)) = f i p + t * (f i q - f i p) := by
    rw [apply_add_smul, map_sub]
  show max 0 (b i - f i (p + t • (q - p)))
    = max 0 (b i - f i p) + t * (max 0 (b i - f i q) - max 0 (b i - f i p))
  rw [hstep]
  rcases hpq i with ⟨hp, hq⟩ | ⟨hp, hq⟩
  · have hmid : b i ≤ f i p + t * (f i q - f i p) := by nlinarith
    rw [max_eq_left (sub_nonpos.mpr hmid), max_eq_left (sub_nonpos.mpr hp),
      max_eq_left (sub_nonpos.mpr hq)]
    ring
  · have hmid : f i p + t * (f i q - f i p) ≤ b i := by nlinarith
    rw [max_eq_right (sub_nonneg.mpr hmid), max_eq_right (sub_nonneg.mpr hp),
      max_eq_right (sub_nonneg.mpr hq)]
    ring

/-! ### The first plane that is met -/

/-- When plane `i` is met from `p` in the direction `u`, if it is. -/
def meets (f : ι → V →ₗ[K] K) (b : ι → K) (p u : V) (i : ι) : K := (b i - f i p) / f i u

/-- Up to the first plane that is met, none is crossed. -/
theorem sameSide_of_le (hfree : ∀ i, OnPlane f b p i → f i u = 0) (ht : 0 ≤ t)
    (hfirst : ∀ i, f i u ≠ 0 → 0 < meets f b p u i → t ≤ meets f b p u i) :
    SameSide f b p (p + t • u) := by
  intro i
  rw [apply_add_smul]
  rcases lt_trichotomy (f i u) 0 with hu | hu | hu
  · rcases le_or_gt (b i) (f i p) with hle | hlt
    · refine .inl ⟨hle, ?_⟩
      have hne : f i p ≠ b i := fun htight => hu.ne (hfree i htight)
      have hpos : 0 < meets f b p u i :=
        div_pos_of_neg_of_neg (sub_neg.mpr (lt_of_le_of_ne hle hne.symm)) hu
      have hmeet := mul_le_mul_of_nonpos_right (hfirst i hu.ne hpos) hu.le
      rw [meets, div_mul_cancel₀ _ hu.ne] at hmeet
      linarith
    · refine .inr ⟨hlt.le, ?_⟩
      have := mul_nonpos_of_nonneg_of_nonpos ht hu.le
      linarith
  · rw [hu, mul_zero, add_zero]
    rcases le_total (b i) (f i p) with hle | hle
    · exact .inl ⟨hle, hle⟩
    · exact .inr ⟨hle, hle⟩
  · rcases le_or_gt (f i p) (b i) with hle | hlt
    · refine .inr ⟨hle, ?_⟩
      have hne : f i p ≠ b i := fun htight => hu.ne' (hfree i htight)
      have hpos : 0 < meets f b p u i := div_pos (sub_pos.mpr (lt_of_le_of_ne hle hne)) hu
      have hmeet := mul_le_mul_of_nonneg_right (hfirst i hu.ne' hpos) hu.le
      rw [meets, div_mul_cancel₀ _ hu.ne'] at hmeet
      linarith
    · refine .inl ⟨hlt.le, ?_⟩
      have := mul_nonneg ht hu.le
      linarith

/-- The first plane that is met, if one is ahead. -/
theorem exists_first [Finite ι] (hfree : ∀ i, OnPlane f b p i → f i u = 0) {j : ι}
    (hj : f j u ≠ 0) (hahead : 0 < meets f b p u j) :
    ∃ t : K, 0 < t ∧ SameSide f b p (p + t • u) ∧
      ∃ i, ¬ OnPlane f b p i ∧ OnPlane f b (p + t • u) i := by
  classical
  have := Fintype.ofFinite ι
  obtain ⟨i, hi, hmin⟩ := Finset.exists_min_image
    (Finset.univ.filter fun i => f i u ≠ 0 ∧ 0 < meets f b p u i) (meets f b p u)
    ⟨j, Finset.mem_filter.mpr ⟨Finset.mem_univ j, hj, hahead⟩⟩
  obtain ⟨-, hu, hpos⟩ := Finset.mem_filter.mp hi
  refine ⟨meets f b p u i, hpos, sameSide_of_le hfree hpos.le fun k hk hposk => ?_, i, ?_, ?_⟩
  · exact hmin k (Finset.mem_filter.mpr ⟨Finset.mem_univ k, hk, hposk⟩)
  · exact fun htight => hu (hfree i htight)
  · rw [OnPlane, apply_add_smul, meets, div_mul_cancel₀ _ hu]
    ring

/-! ### The vertex theorem -/

/-- Between two points that no plane separates, the function is no higher at the one, or lower at
the other. -/
theorem AffineOnCells.le_or_lt (hF : AffineOnCells f b F) (hqr : SameSide f b q r) (h0 : 0 < t)
    (h1 : t < 1) (hp : p = q + t • (r - q)) : F q ≤ F p ∨ F r < F p := by
  have hvalue : F p = F q + t * (F r - F q) := hp ▸ hF q r hqr t h0.le h1.le
  rcases le_or_gt (F q) (F p) with hle | hlt
  · exact .inl hle
  · right
    have hfall : F r < F q := by
      by_contra hcon
      have := mul_nonneg h0.le (sub_nonneg.mpr (not_lt.mp hcon))
      linarith
    have := mul_pos (sub_pos.mpr h1) (sub_pos.mpr hfall)
    linarith

/-- Where no plane is ahead, a function that is bounded below does not fall. -/
theorem AffineOnCells.le_of_ray (hF : AffineOnCells f b F) {m : K}
    (hray : ∀ t : K, 0 ≤ t → SameSide f b p (p + t • u) ∧ m ≤ F (p + t • u)) :
    F p ≤ F (p + u) := by
  by_contra hcon
  have hfall : 0 < F p - F (p + u) := sub_pos.mpr (not_le.mp hcon)
  -- far enough along the ray the function would be below the bound
  set s := 1 + max 0 ((F p - m) / (F p - F (p + u))) with hs
  have hone : 1 ≤ s := le_add_of_nonneg_right (le_max_left _ _)
  have hpos : 0 < s := zero_lt_one.trans_le hone
  obtain ⟨hside, hbound⟩ := hray s hpos.le
  have hstep : p + s⁻¹ • ((p + s • u) - p) = p + u := by
    rw [add_sub_cancel_left, smul_smul, inv_mul_cancel₀ hpos.ne', one_smul]
  have hvalue := hF p (p + s • u) hside s⁻¹ (inv_nonneg.mpr hpos.le) (inv_le_one_of_one_le₀ hone)
  rw [hstep] at hvalue
  have hslope : s * (F p - F (p + u)) = F p - F (p + s • u) := by
    rw [hvalue]
    field_simp
    ring
  have hfar : F p - m < s * (F p - F (p + u)) := by
    rw [← div_lt_iff₀ hfall, hs]
    exact (le_max_right _ _).trans_lt (lt_add_of_pos_left _ zero_lt_one)
  linarith

/-- **One more plane through a point that is no higher.** -/
theorem exists_tighter [Finite ι] (hF : AffineOnCells f b F)
    (hlines : ∀ u, (∀ i ∈ S, f i u = 0) → u = 0) {m : K} (hm : ∀ p, Region f b S p → m ≤ F p)
    (hp : Region f b S p) (hvertex : ¬ IsVertex f b p) :
    ∃ q, Region f b S q ∧ F q ≤ F p ∧ (∀ i, OnPlane f b p i → OnPlane f b q i) ∧
      ∃ i, ¬ OnPlane f b p i ∧ OnPlane f b q i := by
  obtain ⟨v, hfree, hv⟩ : ∃ v, (∀ i, OnPlane f b p i → f i v = 0) ∧ v ≠ 0 := by
    rw [IsVertex] at hvertex
    push Not at hvertex
    exact hvertex
  obtain ⟨i, hi, hcross⟩ : ∃ i ∈ S, f i v ≠ 0 := by
    by_contra hcon
    push Not at hcon
    exact hv (hlines v hcon)
  -- in the direction `u` the region ends
  obtain ⟨u, hfree, hdown⟩ : ∃ u, (∀ i, OnPlane f b p i → f i u = 0) ∧ f i u < 0 := by
    rcases lt_or_gt_of_ne hcross with hlt | hgt
    · exact ⟨v, hfree, hlt⟩
    · refine ⟨-v, fun j hj => ?_, ?_⟩
      · rw [map_neg, hfree j hj, neg_zero]
      · rw [map_neg]
        exact neg_neg_of_pos hgt
  have hnot : f i p ≠ b i := fun htight => hdown.ne (hfree i htight)
  have hahead : 0 < meets f b p u i :=
    div_pos_of_neg_of_neg (sub_neg.mpr (lt_of_le_of_ne (hp i hi) hnot.symm)) hdown
  obtain ⟨t, ht, hside, hmet⟩ := exists_first hfree hdown.ne hahead
  have hfree' : ∀ i, OnPlane f b p i → f i (-u) = 0 := fun j hj => by
    rw [map_neg, hfree j hj, neg_zero]
  have hbetween : ∀ t' : K, 0 < t' → SameSide f b p (p + t' • -u) →
      F (p + t • u) ≤ F p ∨ F (p + t' • -u) < F p := by
    intro t' ht' hside'
    have hsum : t / (t + t') * (t + t') = t := div_mul_cancel₀ _ (add_pos ht ht').ne'
    rw [smul_neg, ← neg_smul] at hside' ⊢
    refine hF.le_or_lt (sameSide_of_opposite hfree hside hside') (div_pos ht (add_pos ht ht'))
      ((div_lt_one (add_pos ht ht')).mpr (lt_add_of_pos_right t ht')) ?_
    have hdiff : p + (-t') • u - (p + t • u) = (-(t + t')) • u := by module
    rw [hdiff, smul_smul, mul_neg, hsum, neg_smul, add_neg_cancel_right]
  have hkeep : Region f b S (p + t • u) ∧ (∀ i, OnPlane f b p i → OnPlane f b (p + t • u) i) ∧
      ∃ i, ¬ OnPlane f b p i ∧ OnPlane f b (p + t • u) i :=
    ⟨hp.of_sameSide hfree hside, fun _ h => h.of_free hfree, hmet⟩
  by_cases hopposite : ∃ j, f j (-u) ≠ 0 ∧ 0 < meets f b p (-u) j
  · obtain ⟨j, hj, hahead'⟩ := hopposite
    obtain ⟨t', ht', hside', hmet'⟩ := exists_first hfree' hj hahead'
    rcases hbetween t' ht' hside' with hle | hlt
    · exact ⟨_, hkeep.1, hle, hkeep.2⟩
    · exact ⟨_, hp.of_sameSide hfree' hside', hlt.le, fun _ h => h.of_free hfree', hmet'⟩
  · have hray : ∀ s : K, 0 ≤ s → SameSide f b p (p + s • -u) ∧ m ≤ F (p + s • -u) := by
      intro s hs
      have hside' : SameSide f b p (p + s • -u) := sameSide_of_le hfree' hs fun j hj hpos =>
        absurd ⟨j, hj, hpos⟩ hopposite
      exact ⟨hside', hm _ (hp.of_sameSide hfree' hside')⟩
    have hrises := hF.le_of_ray hray
    have hle := hbetween 1 zero_lt_one (hray 1 zero_le_one).1
    rw [one_smul] at hle
    exact ⟨_, hkeep.1, hle.resolve_right (not_lt.mpr hrises), hkeep.2⟩

/-- **The vertex theorem.** A function that is affine on every cell and bounded below on a region
without a whole line is no higher at some vertex of the region than at a given point of it. -/
theorem exists_vertex_le [Finite ι] (hF : AffineOnCells f b F)
    (hlines : ∀ u, (∀ i ∈ S, f i u = 0) → u = 0) {m : K} (hm : ∀ p, Region f b S p → m ≤ F p)
    (hp : Region f b S p) : ∃ q, Region f b S q ∧ IsVertex f b q ∧ F q ≤ F p := by
  classical
  have := Fintype.ofFinite ι
  -- on the number of planes that do not go through the point
  induction hn : (Finset.univ.filter fun i => ¬ OnPlane f b p i).card using Nat.strong_induction_on
    generalizing p with
  | _ n ih =>
    by_cases hvertex : IsVertex f b p
    · exact ⟨p, hp, hvertex, le_rfl⟩
    · obtain ⟨q, hq, hle, hkeeps, i, hloose, hmet⟩ := exists_tighter hF hlines hm hp hvertex
      have hfewer : (Finset.univ.filter fun i => ¬ OnPlane f b q i).card < n := by
        rw [← hn]
        refine Finset.card_lt_card ?_
        refine Finset.ssubset_iff_subset_ne.mpr ⟨fun j hj => ?_, fun heq => ?_⟩
        · rw [Finset.mem_filter] at hj ⊢
          exact ⟨hj.1, fun h => hj.2 (hkeeps j h)⟩
        · have hmem : i ∈ Finset.univ.filter fun i => ¬ OnPlane f b q i := by
            rw [heq]
            exact Finset.mem_filter.mpr ⟨Finset.mem_univ i, hloose⟩
          exact (Finset.mem_filter.mp hmem).2 hmet
      obtain ⟨v, hv, hvertex', hle'⟩ := ih _ hfewer hq rfl
      exact ⟨v, hv, hvertex', hle'.trans hle⟩

omit [LinearOrder K] [IsStrictOrderedRing K] in
/-- The planes through a vertex determine it. -/
theorem injOn_isVertex : Set.InjOn (fun p => {i | OnPlane f b p i}) {p | IsVertex f b p} := by
  intro p hp q _ heq
  have hdiff : q - p = 0 := by
    refine hp _ fun i hi => ?_
    have hiq : OnPlane f b q i := (Set.ext_iff.mp heq i).mp hi
    rw [map_sub, hiq, hi, sub_self]
  exact (sub_eq_zero.mp hdiff).symm

/-- The function has a least value on the region: there are finitely many vertices. -/
theorem exists_least [Finite ι] (hF : AffineOnCells f b F)
    (hlines : ∀ u, (∀ i ∈ S, f i u = 0) → u = 0) {m : K} (hm : ∀ p, Region f b S p → m ≤ F p)
    (hp : Region f b S p) : ∃ q, Region f b S q ∧ ∀ r, Region f b S r → F q ≤ F r := by
  have hfinite : {q | Region f b S q ∧ IsVertex f b q}.Finite :=
    (Set.Finite.of_finite_image (Set.toFinite _) injOn_isVertex).subset fun _ hq => hq.2
  obtain ⟨v, hv, hvertex, -⟩ := exists_vertex_le hF hlines hm hp
  obtain ⟨q, hq, hleast⟩ := Set.exists_min_image _ F hfinite ⟨v, hv, hvertex⟩
  refine ⟨q, hq.1, fun r hr => ?_⟩
  obtain ⟨u, hu, huvertex, hle⟩ := exists_vertex_le hF hlines hm hr
  exact (hleast u ⟨hu, huvertex⟩).trans hle

/-! ### Vertices in the plane and in space -/

section Coordinates

omit [IsStrictOrderedRing K] [LinearOrder K]

/-- Some plane through a vertex stops a given direction. -/
theorem IsVertex.exists_stop (h : IsVertex f b p) (hu : u ≠ 0) :
    ∃ i, OnPlane f b p i ∧ f i u ≠ 0 := by
  by_contra hcon
  push Not at hcon
  exact hu (h u hcon)

/-- Two lines that cross at a vertex of the plane. -/
theorem IsVertex.exists_pair {f : ι → K × K →ₗ[K] K} {p : K × K} (h : IsVertex f b p)
    (x y : ι → K) (hf : ∀ i u, f i u = x i * u.1 + y i * u.2) :
    ∃ i j, OnPlane f b p i ∧ OnPlane f b p j ∧ x i * y j - y i * x j ≠ 0 := by
  obtain ⟨i, hi, hx⟩ := h.exists_stop (u := (1, 0)) fun h0 => one_ne_zero (congrArg Prod.fst h0)
  rw [hf] at hx
  have hxi : x i ≠ 0 := fun h0 => hx (by simp [h0])
  obtain ⟨j, hj, hne⟩ := h.exists_stop (u := (-y i, x i)) fun h0 => hxi (congrArg Prod.snd h0)
  rw [hf] at hne
  refine ⟨i, j, hi, hj, fun h0 => hne ?_⟩
  linear_combination h0

/-- Three planes that meet in a vertex of space. -/
theorem IsVertex.exists_triple {f : ι → K × K × K →ₗ[K] K} {p : K × K × K}
    (h : IsVertex f b p) (x y z : ι → K)
    (hf : ∀ i u, f i u = x i * u.1 + y i * u.2.1 + z i * u.2.2) :
    ∃ i j k, OnPlane f b p i ∧ OnPlane f b p j ∧ OnPlane f b p k ∧
      x i * (y j * z k - z j * y k) - y i * (x j * z k - z j * x k)
        + z i * (x j * y k - y j * x k) ≠ 0 := by
  obtain ⟨i, hi, hx⟩ := h.exists_stop (u := (1, 0, 0)) fun h0 =>
    one_ne_zero (congrArg Prod.fst h0)
  rw [hf] at hx
  have hxi : x i ≠ 0 := fun h0 => hx (by simp [h0])
  obtain ⟨j, hj, hxy⟩ := h.exists_stop (u := (-y i, x i, 0)) fun h0 =>
    hxi (congrArg (fun v : K × K × K => v.2.1) h0)
  rw [hf] at hxy
  -- along the line in which the two planes meet
  obtain ⟨k, hk, hne⟩ := h.exists_stop
    (u := (y i * z j - z i * y j, z i * x j - x i * z j, x i * y j - y i * x j)) fun h0 => by
      have hz : x i * y j - y i * x j = 0 := congrArg (fun v : K × K × K => v.2.2) h0
      refine hxy ?_
      show x j * -y i + y j * x i + z j * 0 = 0
      linear_combination hz
  rw [hf] at hne
  refine ⟨i, j, k, hi, hj, hk, fun h0 => hne ?_⟩
  show x k * (y i * z j - z i * y j) + y k * (z i * x j - x i * z j)
    + z k * (x i * y j - y i * x j) = 0
  linear_combination h0

end Coordinates

end Arrangement
