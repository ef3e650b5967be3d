import ThrottleKit.Lib.Lockstep
import ThrottleKit.TwoTier.FairEscrowLimit

/-!
# The guarantees of a weighted fair escrow

A check past its tenant's guarantee may borrow what the budget leaves once the others' unused
guarantees are set aside. With the set of tenants and their weights fixed, that should keep the
guarantees whole: as long as what is left covers all of them, no tenant is refused within its own.

The borrow rule sets aside the others' guarantees from what is left before the check, and compares
the rest with what the check needs past its guarantee. Of a check that starts within its guarantee
and ends past it, the first part is not counted: what is left falls by the whole cost, and may then
fall short of what was set aside (`borrowing_eats_guarantee`). A check that starts where its
guarantee ends borrows all it costs, so checks of one unit never do that (`spares_of_unit`).

What the tenants have left is in rationals. A decision by doubles is the same where nothing is
rounded.

## Main definitions

* `unusedGuarantees`, `GuaranteesFit` — what the tenants have left of their guarantees, all of it
  covered by what is left of the budget
* `WithinGuarantee`, `KeepsGuarantees` — what a check may ask for, and what its decision has to do
* `Spares` — the condition on a check
* `PlainVerdict` — nothing that a decision rests on is rounded

## Main results

* `verdict_allowed_iff` — when a check is admitted
* `keepsGuarantees_iff` — the decision on one check
* `PlainVerdict.decide_eq` — a decision that is not rounded is that of rationals
* `decisions_keep_guarantees_iff` — every sequence of decisions
-/

namespace ThrottleKit.FairEscrow

open Lockstep Rounding

variable {b : Budget}

namespace Process

/-- `lRemaining`: what is left of the budget. -/
def lRemaining (s : Process) : ℚ := s.lEffective - s.aggregate.totalUsed

/-- The guaranteed share of the entry `ref`. -/
def guarantee (s : Process) (ref : ℕ) : ℚ :=
  s.flooredShare (s.heap ref).weight s.aggregate.totalWeight

/-- What the entry `ref` has left of its guaranteed share. -/
def unused (s : Process) (ref : ℕ) : ℚ := max 0 (s.guarantee ref - (s.heap ref).used)

/-- What the active tenants have left of their guaranteed shares. -/
def unusedGuarantees (s : Process) : ℚ := s.tenants.sum fun _ ref => s.unused ref

/-- What is left of the budget once the others' unused guarantees are set aside. -/
def surplus (s : Process) (ref : ℕ) : ℚ :=
  s.lRemaining - s.reserve ref s.aggregate.totalWeight

end Process

/-- What is left of the budget covers the unused guarantees. -/
def GuaranteesFit (s : Process) : Prop := s.unusedGuarantees ≤ s.lRemaining

/-- The check keeps its tenant within its own guarantee. -/
def WithinGuarantee (s : Process) (k : Check) : Prop :=
  (s.heap k.entry).used + k.cost ≤ s.guarantee k.entry

/-- What is left still covers the unused guarantees after the decision, and the check is admitted if
it keeps its tenant within its own. -/
def KeepsGuarantees [Rounding] (b : Budget) (s : Process) (k : Check) : Prop :=
  GuaranteesFit (s.decide b k).1 ∧ (WithinGuarantee s k → (s.decide b k).2.allowed = true)

/-- Where the budget has room for a check that takes its tenant past its guarantee, by no more than
the surplus, the surplus covers the whole check and not only that part of it. -/
def Spares (s : Process) (k : Check) : Prop :=
  k.cost ≤ s.lRemaining → (s.heap k.entry).used ≤ s.guarantee k.entry →
    s.guarantee k.entry < (s.heap k.entry).used + k.cost →
      (s.heap k.entry).used + k.cost - s.guarantee k.entry ≤ s.surplus k.entry →
        k.cost ≤ s.surplus k.entry

instance (s : Process) : Decidable (GuaranteesFit s) := inferInstanceAs (Decidable (_ ≤ _))

instance (s : Process) (k : Check) : Decidable (WithinGuarantee s k) :=
  inferInstanceAs (Decidable (_ ≤ _))

instance KeepsGuarantees.decidable [Rounding] (b : Budget) (s : Process) (k : Check) :
    Decidable (KeepsGuarantees b s k) :=
  inferInstanceAs (Decidable (_ ∧ (_ → _)))

instance (b : Budget) (s : Process) (k : Check) : Decidable (@KeepsGuarantees doubles b s k) :=
  @KeepsGuarantees.decidable doubles b s k

instance (s : Process) (k : Check) : Decidable (Spares s k) :=
  inferInstanceAs (Decidable (_ → _ → _ → _ → _))

/-- `decide`, check after check. -/
def decisions [Rounding] (b : Budget) : Service Process Check ShareDecision :=
  fun s k => s.decide b k

/-! ### Sums over the tenants -/

section Sums

variable {s : Process} {tenant : String} {ref : ℕ}

/-- What is set aside, summed over the map. -/
theorem reserve_eq_sum (s : Process) (entry : ℕ) (totalWeight : ℚ) :
    s.reserve entry totalWeight = s.tenants.sum fun _ ref => if ref = entry then 0
      else max 0 (s.flooredShare (s.heap ref).weight totalWeight - (s.heap ref).used) := by
  rw [Process.reserve, sumOf_exact, Process.reserves, OrderedMap.sum]
  have hsplit := List.sum_map_ite (fun e : String × ℕ => e.2 = entry) (fun _ => (0 : ℚ))
    (fun e => max 0 (s.flooredShare (s.heap e.2).weight totalWeight - (s.heap e.2).used))
    s.tenants.entries
  rw [hsplit, List.map_const', List.sum_replicate, nsmul_zero, zero_add]
  rfl

theorem unused_nonneg (s : Process) (ref : ℕ) : 0 ≤ s.unused ref := le_max_left _ _

/-- The unused guarantees are the asker's own and those set aside for the others. -/
theorem Sound.unusedGuarantees_eq (h : Sound s) (hlookup : s.tenants.lookup tenant = some ref) :
    s.unusedGuarantees = s.unused ref + s.reserve ref s.aggregate.totalWeight := by
  have hothers : ∀ tenant' ref', (s.tenants.erase tenant).lookup tenant' = some ref' →
      s.unused ref' = if ref' = ref then 0 else s.unused ref' := by
    intro tenant' ref' hlookup'
    rw [OrderedMap.lookup_erase] at hlookup'
    split at hlookup'
    · cases hlookup'
    · rename_i hne
      refine (if_neg fun heq => hne ?_).symm
      exact (h.distinct tenant tenant' ref hlookup (heq ▸ hlookup')).symm
  have hreserve : s.reserve ref s.aggregate.totalWeight
      = (s.tenants.erase tenant).sum fun _ ref' => if ref' = ref then 0 else s.unused ref' := by
    rw [reserve_eq_sum]
    refine (OrderedMap.sum_eq_add_sum_erase _ hlookup).trans ?_
    rw [if_pos rfl, zero_add]
    rfl
  rw [hreserve, ← OrderedMap.sum_congr hothers]
  exact OrderedMap.sum_eq_add_sum_erase _ hlookup

theorem reserve_nonneg (s : Process) (ref : ℕ) (totalWeight : ℚ) :
    0 ≤ s.reserve ref totalWeight := by
  rw [reserve_eq_sum]
  refine OrderedMap.sum_nonneg fun _ ref' _ => ?_
  split
  · exact le_rfl
  · exact le_max_left _ _

theorem Sound.unused_le (h : Sound s) (hlookup : s.tenants.lookup tenant = some ref) :
    s.unused ref ≤ s.unusedGuarantees := by
  rw [h.unusedGuarantees_eq hlookup]
  exact le_add_of_nonneg_right (reserve_nonneg s ref _)

section Charge

variable {cost : ℚ} (h : Sound s) (hlookup : s.tenants.lookup tenant = some ref) (hcost : 0 < cost)
include h hlookup hcost

/-- A charge leaves the totals' weight, and with it every guarantee, as it is. -/
theorem Sound.totalWeight_applyUsed :
    (s.applyUsed ref cost).aggregate.totalWeight = s.aggregate.totalWeight := by
  rw [(h.applyUsed hlookup hcost rfl rfl).aggregate (plainTotals_exact _),
    h.aggregate (plainTotals_exact _)]
  rfl

theorem Sound.guarantee_applyUsed (ref' : ℕ) :
    (s.applyUsed ref cost).guarantee ref' = s.guarantee ref' := by
  have hweight : ((s.applyUsed ref cost).heap ref').weight = (s.heap ref').weight := by
    show (Function.update s.heap ref _ ref').weight = _
    rw [Function.update_apply]
    split
    · rename_i heq
      rw [heq]
    · rfl
  rw [Process.guarantee, Process.guarantee, hweight, h.totalWeight_applyUsed hlookup hcost]
  rfl

theorem Sound.lRemaining_applyUsed :
    (s.applyUsed ref cost).lRemaining = s.lRemaining - cost := by
  rw [Process.lRemaining, Process.lRemaining,
    (h.applyUsed hlookup hcost rfl rfl).aggregate (plainTotals_exact _),
    h.aggregate (plainTotals_exact _)]
  exact sub_add_eq_sub_sub _ _ _

/-- A charge is taken from what its own tenant has left, as far as that goes. -/
theorem Sound.unusedGuarantees_applyUsed :
    (s.applyUsed ref cost).unusedGuarantees
      = max 0 (s.guarantee ref - ((s.heap ref).used + cost))
        + s.reserve ref s.aggregate.totalWeight := by
  have hentry : ∀ ref', (s.applyUsed ref cost).unused ref'
      = Function.update s.unused ref (max 0 (s.guarantee ref - ((s.heap ref).used + cost)))
          ref' := by
    intro ref'
    rw [Process.unused, h.guarantee_applyUsed hlookup hcost, Function.update_apply]
    show max 0 (_ - (Function.update s.heap ref _ ref').used) = _
    rw [Function.update_apply]
    split
    · rename_i heq
      rw [heq]
      rfl
    · rfl
  have hsum : (s.applyUsed ref cost).unusedGuarantees = s.unusedGuarantees
      + (max 0 (s.guarantee ref - ((s.heap ref).used + cost)) - s.unused ref) := by
    refine (OrderedMap.sum_congr fun _ ref' _ => hentry ref').trans ?_
    exact OrderedMap.sum_update_of_lookup hlookup
      (fun tenant' => h.distinct tenant tenant' ref hlookup) _ _
  rw [hsum, h.unusedGuarantees_eq hlookup]
  ring

end Charge

end Sums

/-! ### One decision -/

section Decide

variable {s : Process} {k : Check}

/-- What a check may use in all: its guarantee, and what it is granted past that. -/
def Process.realizedCeiling (s : Process) (k : Check) : ℚ :=
  s.guarantee k.entry + min (min (min ((s.heap k.entry).used + k.cost - s.guarantee k.entry) k.cost)
    (max 0 (s.surplus k.entry))) s.lRemaining

theorem verdict_allowed (h : Sound s) (hlookup : s.tenants.lookup k.tenant = some k.entry) :
    (s.verdict b k).allowed = if s.lRemaining < k.cost then false
      else if (s.heap k.entry).used + k.cost ≤ s.guarantee k.entry then true
      else if (s.heap k.entry).used + k.cost ≤ s.realizedCeiling k then true else false := by
  have hweight : s.aggregate.totalWeight ≠ 0 := by
    rw [h.aggregate (plainTotals_exact s)]
    exact (h.aggWeight_pos hlookup).ne'
  have hshare : s.guaranteedShare (s.heap k.entry).weight s.aggregate.totalWeight
      = (s.guarantee k.entry : ℚ) := if_neg hweight
  rw [Process.verdict, hshare]
  simp only [apply_ite ShareDecision.allowed]
  rfl

/-- Past the guarantee, what is granted covers the check only if the check starts within it and the
surplus covers the rest. -/
theorem le_realizedCeiling_iff (hroom : k.cost ≤ s.lRemaining)
    (hpast : s.guarantee k.entry < (s.heap k.entry).used + k.cost) :
    (s.heap k.entry).used + k.cost ≤ s.realizedCeiling k ↔
      (s.heap k.entry).used ≤ s.guarantee k.entry ∧
        (s.heap k.entry).used + k.cost - s.guarantee k.entry ≤ s.surplus k.entry := by
  rw [Process.realizedCeiling, ← sub_le_iff_le_add', le_min_iff, le_min_iff, le_min_iff, le_max_iff]
  constructor
  · rintro ⟨⟨⟨-, hcost⟩, hsurplus⟩, -⟩
    exact ⟨by linarith, hsurplus.resolve_left (by linarith)⟩
  · rintro ⟨hused, hsurplus⟩
    exact ⟨⟨⟨le_rfl, by linarith⟩, .inr hsurplus⟩, by linarith⟩

/-- A check is admitted if the budget has room for it, and its tenant's guarantee covers it or the
surplus what goes past that. -/
theorem verdict_allowed_iff (h : Sound s) (hlookup : s.tenants.lookup k.tenant = some k.entry) :
    (s.verdict b k).allowed = true ↔ k.cost ≤ s.lRemaining ∧ (WithinGuarantee s k ∨
      (s.heap k.entry).used ≤ s.guarantee k.entry ∧
        (s.heap k.entry).used + k.cost - s.guarantee k.entry ≤ s.surplus k.entry) := by
  rw [verdict_allowed h hlookup]
  split
  · rename_i hshort
    exact iff_of_false Bool.false_ne_true fun hcon => absurd hcon.1 (not_le.mpr hshort)
  · rename_i hroom
    have hle : k.cost ≤ s.lRemaining := not_lt.mp hroom
    split
    · rename_i hwithin
      exact iff_of_true rfl ⟨hle, .inl hwithin⟩
    · rename_i hover
      have hpast : ¬ WithinGuarantee s k := hover
      rw [and_iff_right hle, or_iff_right hpast, ← le_realizedCeiling_iff hle (not_le.mp hover)]
      simp

/-- A check within its guarantee finds the room for it. -/
theorem GuaranteesFit.room (hfit : GuaranteesFit s) (h : Sound s)
    (hlookup : s.tenants.lookup k.tenant = some k.entry) (hwithin : WithinGuarantee s k) :
    k.cost ≤ s.lRemaining := by
  have hown : k.cost ≤ s.unused k.entry := le_max_of_le_right (by
    rw [WithinGuarantee] at hwithin
    linarith)
  exact (hown.trans (h.unused_le hlookup)).trans hfit

/-- **What is left covers the unused guarantees after an admission** if it was within the guarantee,
or else if the surplus covered it. -/
theorem guaranteesFit_applyUsed_iff (hfit : GuaranteesFit s) (h : Sound s)
    (hlookup : s.tenants.lookup k.tenant = some k.entry) :
    GuaranteesFit (s.applyUsed k.entry k.cost) ↔
      WithinGuarantee s k ∨ k.cost ≤ s.surplus k.entry := by
  rw [GuaranteesFit, h.unusedGuarantees_applyUsed hlookup k.cost_pos,
    h.lRemaining_applyUsed hlookup k.cost_pos]
  by_cases hwithin : (s.heap k.entry).used + k.cost ≤ s.guarantee k.entry
  · refine iff_of_true ?_ (.inl hwithin)
    have hpos := k.cost_pos
    rw [GuaranteesFit, h.unusedGuarantees_eq hlookup, Process.unused,
      max_eq_right (by linarith)] at hfit
    rw [max_eq_right (by linarith)]
    linarith
  · have hpast : ¬ WithinGuarantee s k := hwithin
    rw [or_iff_right hpast, max_eq_left (by linarith), Process.surplus, zero_add]
    constructor <;> intro hle <;> linarith

/-- **One decision keeps the guarantees** just where the check spares them. -/
theorem keepsGuarantees_iff (hfit : GuaranteesFit s) (h : Sound s)
    (hlookup : s.tenants.lookup k.tenant = some k.entry) :
    KeepsGuarantees b s k ↔ Spares s k := by
  have hiff := verdict_allowed_iff (b := b) h hlookup
  rcases decide_cases (b := b) s k with ⟨hallowed, heq⟩ | ⟨hdenied, heq⟩
  · obtain ⟨hroom, hcover⟩ := hiff.mp hallowed
    have hadmitted : WithinGuarantee s k → (s.decide b k).2.allowed = true := fun _ => hallowed
    rw [KeepsGuarantees, heq, guaranteesFit_applyUsed_iff hfit h hlookup, and_iff_left hadmitted]
    rcases hcover with hwithin | ⟨hused, hsurplus⟩
    · exact iff_of_true (.inl hwithin) fun _ _ hpast => absurd hwithin (not_le.mpr hpast)
    · by_cases hwithin : WithinGuarantee s k
      · exact iff_of_true (.inl hwithin) fun _ _ hpast => absurd hwithin (not_le.mpr hpast)
      · rw [or_iff_right hwithin]
        exact ⟨fun hle _ _ _ _ => hle,
          fun hspares => hspares hroom hused (not_le.mp hwithin) hsurplus⟩
  · have hnot : ¬ _ := fun hcover => Bool.false_ne_true (hdenied.symm.trans (hiff.mpr hcover))
    refine iff_of_true ⟨by rwa [heq], fun hwithin => ?_⟩ ?_
    · exact absurd ⟨hfit.room h hlookup hwithin, .inl hwithin⟩ hnot
    · exact fun hroom hused _ hsurplus => absurd ⟨hroom, .inr ⟨hused, hsurplus⟩⟩ hnot

/-- A check of one unit on a whole used amount starts where it is past the guarantee. -/
theorem spares_of_unit (hcost : k.cost = 1) {n : ℤ} (hused : (s.heap k.entry).used = n) :
    Spares s k := by
  intro _ hle hlt hsurplus
  rw [hused] at hle hlt hsurplus
  rw [hcost] at hlt hsurplus ⊢
  obtain ⟨g, hg⟩ : ∃ g : ℤ, s.guarantee k.entry = g := ⟨_, rfl⟩
  rw [hg] at hle hlt hsurplus
  have hfull : n = g := by
    have hle' : n ≤ g := by exact_mod_cast hle
    have hlt' : g < n + 1 := by exact_mod_cast hlt
    omega
  rw [hfull] at hsurplus
  linarith

end Decide

/-! ### Decisions that are not rounded -/

section Plain

variable [Rounding] {s : Process} {k : Check}

/-- The references of the asker and of the active tenants. -/
def Process.refs (s : Process) (k : Check) : List ℕ := k.entry :: s.tenants.entries.map Prod.snd

/-- Nothing that a decision rests on is rounded, past a whole number where it is floored. -/
structure PlainVerdict (s : Process) (k : Check) : Prop where
  totals : PlainTotals s
  left : Unrounded s.lRemaining
  product : ∀ ref ∈ s.refs k, Unrounded ((s.heap ref).weight * s.lEffective)
  share : ∀ ref ∈ s.refs k, FloorKept
    ((s.heap ref).weight * s.lEffective / (@Process.aggregate exact s).totalWeight)
  used : Unrounded ((s.heap k.entry).used + k.cost)
  unused : ∀ ref ∈ s.refs k, Unrounded (s.guarantee ref - (s.heap ref).used)
  reserve : ∀ rs ∈ (@Process.reserves exact s k.entry
    (@Process.aggregate exact s).totalWeight).inits, Unrounded rs.sum
  surplus : Unrounded (s.surplus k.entry)
  wanted : Unrounded ((s.heap k.entry).used + k.cost - s.guarantee k.entry)
  ceiling : Unrounded (s.realizedCeiling k)
  total : Unrounded (s.aggUsed + k.cost)

instance PlainVerdict.decidable (s : Process) (k : Check) : Decidable (PlainVerdict s k) :=
  decidable_of_iff (_ ∧ _ ∧ _ ∧ _ ∧ _ ∧ _ ∧ _ ∧ _ ∧ _ ∧ _ ∧ _)
    ⟨fun ⟨h₁, h₂, h₃, h₄, h₅, h₆, h₇, h₈, h₉, h₁₀, h₁₁⟩ =>
      ⟨h₁, h₂, h₃, h₄, h₅, h₆, h₇, h₈, h₉, h₁₀, h₁₁⟩,
    fun ⟨h₁, h₂, h₃, h₄, h₅, h₆, h₇, h₈, h₉, h₁₀, h₁₁⟩ =>
      ⟨h₁, h₂, h₃, h₄, h₅, h₆, h₇, h₈, h₉, h₁₀, h₁₁⟩⟩

omit [Rounding] in
instance (s : Process) (k : Check) : Decidable (@PlainVerdict doubles s k) :=
  @PlainVerdict.decidable doubles s k

theorem PlainVerdict.aggregate_eq (h : PlainVerdict s k) :
    s.aggregate = @Process.aggregate exact s := by
  unfold Process.aggregate
  split
  · rename_i hfractional
    obtain ⟨hweights, huseds⟩ := h.totals hfractional
    rw [sumOf_eq_sum hweights, sumOf_eq_sum huseds, sumOf_exact, sumOf_exact]
  · rfl

theorem PlainVerdict.flooredShare_eq (h : PlainVerdict s k) {ref : ℕ} (href : ref ∈ s.refs k) :
    s.flooredShare (s.heap ref).weight (@Process.aggregate exact s).totalWeight
      = s.guarantee ref := by
  rw [Process.flooredShare, (h.product ref href : fl _ = _)]
  exact congrArg _ (h.share ref href)

theorem PlainVerdict.reserve_eq (h : PlainVerdict s k) :
    s.reserve k.entry (@Process.aggregate exact s).totalWeight
      = @Process.reserve exact s k.entry (@Process.aggregate exact s).totalWeight := by
  have hlist : s.reserves k.entry (@Process.aggregate exact s).totalWeight
      = @Process.reserves exact s k.entry (@Process.aggregate exact s).totalWeight := by
    refine List.map_congr_left fun e he => ?_
    have href : e.2 ∈ s.refs k :=
      List.mem_cons_of_mem _ (List.mem_map_of_mem (List.mem_filter.mp he).1)
    rw [h.flooredShare_eq href, (h.unused e.2 href : fl _ = _)]
    rfl
  rw [Process.reserve, hlist, sumOf_eq_sum h.reserve]
  exact (sumOf_exact _).symm

/-- A decision that is not rounded is that of rationals. -/
theorem PlainVerdict.verdict_allowed_eq (h : PlainVerdict s k) :
    (s.verdict b k).allowed = (@Process.verdict exact b s k).allowed := by
  have hleft : fl (s.lEffective - (@Process.aggregate exact s).totalUsed) = s.lRemaining := h.left
  have hused : fl ((s.heap k.entry).used + k.cost) = (s.heap k.entry).used + k.cost := h.used
  have hsurplus : fl (s.lRemaining
      - @Process.reserve exact s k.entry (@Process.aggregate exact s).totalWeight)
        = s.surplus k.entry := h.surplus
  have hwanted : fl ((s.heap k.entry).used + k.cost - s.guarantee k.entry)
      = (s.heap k.entry).used + k.cost - s.guarantee k.entry := h.wanted
  have hceiling : fl (s.guarantee k.entry +
      min (min (min ((s.heap k.entry).used + k.cost - s.guarantee k.entry) k.cost)
        (max 0 (s.surplus k.entry))) s.lRemaining) = s.realizedCeiling k := h.ceiling
  have hshare : s.guaranteedShare (s.heap k.entry).weight (@Process.aggregate exact s).totalWeight
      = @Process.guaranteedShare exact s (s.heap k.entry).weight
        (@Process.aggregate exact s).totalWeight := by
    rw [Process.guaranteedShare, h.flooredShare_eq List.mem_cons_self]
    rfl
  rw [Process.verdict, @Process.verdict.eq_1 exact, h.aggregate_eq, hshare, hleft, h.reserve_eq,
    hused]
  split
  · simp only [apply_ite ShareDecision.allowed]
    rfl
  · rename_i gAsker hg
    have hguarantee : gAsker = s.guarantee k.entry := by
      rw [@Process.guaranteedShare.eq_1 exact] at hg
      split at hg
      · cases hg
      · exact (WithTop.coe_inj.mp hg).symm
    subst hguarantee
    simp only [hsurplus, hwanted, hceiling, apply_ite ShareDecision.allowed]
    rfl

/-- So is the charge for it. -/
theorem PlainVerdict.decide_eq (h : PlainVerdict s k) :
    (s.decide b k).1 = (@Process.decide exact b s k).1 ∧
      (s.decide b k).2.allowed = (@Process.decide exact b s k).2.allowed := by
  refine ⟨?_, h.verdict_allowed_eq⟩
  have hcharge : s.applyUsed k.entry k.cost = @Process.applyUsed exact s k.entry k.cost := by
    rw [Process.applyUsed, (h.used : fl _ = _), (h.total : fl _ = _)]
    rfl
  rw [Process.decide, @Process.decide.eq_1 exact, h.verdict_allowed_eq, hcharge]

end Plain

/-! ### Every sequence of decisions -/

/-- Over rationals, decisions keep the guarantees just where every check spares them. -/
theorem keepsGuarantees_iff_spares (s : Process) (ks : List Check) (h : Sound s)
    (hfit : GuaranteesFit s) (hks : ∀ k ∈ ks, s.tenants.lookup k.tenant = some k.entry) :
    AllMet (decisions b) (KeepsGuarantees b) s ks ↔ AllMet (decisions b) Spares s ks := by
  refine allMet_iff (I := fun t => Sound t ∧ GuaranteesFit t ∧ t.tenants = s.tenants)
    (p := fun k => s.tenants.lookup k.tenant = some k.entry) ?_ ks ⟨h, hfit, rfl⟩ hks
  rintro t k ⟨hsound, hcovered, htenants⟩ hk
  rw [← htenants] at hk
  refine ⟨keepsGuarantees_iff hcovered hsound hk, fun hkeeps => ?_⟩
  show Sound (t.decide b k).1 ∧ GuaranteesFit (t.decide b k).1 ∧ (t.decide b k).1.tenants = _
  refine ⟨?_, hkeeps.1, ?_⟩
  · rcases decide_cases (b := b) t k with ⟨-, heq⟩ | ⟨-, heq⟩
    · rw [heq]
      exact hsound.applyUsed hk k.cost_pos rfl rfl
    · rwa [heq]
  · rcases decide_cases (b := b) t k with ⟨-, heq⟩ | ⟨-, heq⟩
    · rw [heq]
      exact htenants
    · rw [heq]
      exact htenants

/-- **The guarantees of a weighted fair escrow.** Over a fixed set of tenants of fixed weights, from
any state in which what is left covers the unused guarantees, and with no decision rounded: every
decision of a sequence leaves them covered, and admits each check that keeps its tenant within its
own, just where every check of the sequence spares them. -/
theorem decisions_keep_guarantees_iff [Rounding] (s : Process) (ks : List Check) (h : Sound s)
    (hfit : GuaranteesFit s) (hks : ∀ k ∈ ks, s.tenants.lookup k.tenant = some k.entry)
    (hplain : AllMet (decisions b) PlainVerdict s ks) :
    AllMet (decisions b) (KeepsGuarantees b) s ks ↔ AllMet (decisions b) Spares s ks := by
  have hdecide : ∀ s k, PlainVerdict s k → (decisions b s k).1 = (@decisions exact b s k).1 :=
    fun s k hk => hk.decide_eq.1
  have hkeeps : ∀ s k, PlainVerdict s k →
      (KeepsGuarantees b s k ↔ @KeepsGuarantees exact b s k) := by
    intro s k hk
    rw [KeepsGuarantees, @KeepsGuarantees.eq_1 exact, hk.decide_eq.1, hk.decide_eq.2]
  rw [allMet_congr hdecide hkeeps ks hplain, allMet_congr hdecide (fun _ _ _ => Iff.rfl) ks hplain]
  exact keepsGuarantees_iff_spares s ks h hfit hks

/-! ### The condition is needed -/

/-- Twenty units a second. -/
def twentyASecond : Budget := ⟨20, 1000, "tk:wfe:pool", by decide, second_pos⟩

/-- A process without `l2`. -/
def holdsTwenty : Config twentyASecond := ⟨none, none⟩

/-- Two tenants of one weight. -/
def twoTenants : Process :=
  (((Process.new holdsTwenty).opened holdsTwenty (0 : ℚ)).addTenant "a" 1).addTenant "b" 1

/-- They have used five and one of their ten. -/
def fiveAndOne : Process := (twoTenants.applyUsed 0 5).applyUsed 1 1

theorem sound_twoTenants : Sound twoTenants := by
  have hopened : Sound ((Process.new holdsTwenty).opened holdsTwenty (0 : ℚ)) :=
    .empty _ _ _ _ _ _
  exact (hopened.addTenant rfl unit_pos rfl).addTenant (by decide) unit_pos rfl

theorem sound_fiveAndOne : Sound fiveAndOne := by
  have ha : twoTenants.tenants.lookup "a" = some 0 := by decide
  have hb : (twoTenants.applyUsed 0 5).tenants.lookup "b" = some 1 := by decide
  exact (sound_twoTenants.applyUsed ha (by decide) rfl rfl).applyUsed hb unit_pos rfl rfl

/-- Tenant `a` comes back. -/
def asksA (cost : ℚ) (h : 0 < cost) : Check := ⟨"a", 0, cost, 1, h⟩

/-- Tenant `b` comes back. -/
def asksB (cost : ℚ) (h : 0 < cost) : Check := ⟨"b", 1, cost, 2, h⟩

/-- The first tenant uses up its guarantee, the second all but one unit of its own, and one of them
asks for one unit more than is left. -/
theorem decisions_keep_guarantees_within :
    AllMet (@decisions doubles twentyASecond) (@KeepsGuarantees doubles twentyASecond) fiveAndOne
      [asksA 5 (by decide), asksB 8 (by decide), asksA 2 (by decide)] :=
  (@decisions_keep_guarantees_iff _ doubles fiveAndOne _ sound_fiveAndOne (by decide +kernel)
    (by decide +kernel) (by decide +kernel)).mpr (by decide +kernel)

/-- **Borrowing eats a guarantee.** The first tenant asks for eight: three past its guarantee, where
the surplus is five. Six of the twenty are then left for the second tenant, and its nine, which keep
it within its ten, are refused. -/
theorem borrowing_eats_guarantee :
    ¬ ∀ (s : Process) (ks : List Check), Sound s → GuaranteesFit s →
      (∀ k ∈ ks, s.tenants.lookup k.tenant = some k.entry) →
        AllMet (@decisions doubles twentyASecond)
          (@KeepsGuarantees doubles twentyASecond) s ks := by
  intro hall
  have hkeeps := hall fiveAndOne [asksA 8 (by decide), asksB 9 (by decide)] sound_fiveAndOne
    (by decide +kernel) (by decide +kernel)
  exact absurd hkeeps (by decide +kernel)

end ThrottleKit.FairEscrow
