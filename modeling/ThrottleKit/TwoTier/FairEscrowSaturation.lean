import ThrottleKit.TwoTier.FairEscrowLockstep
import ThrottleKit.TwoTier.FairEscrowReserve

/-!
# A saturated weighted fair escrow

Tenants of whole weights take turns asking for one unit each, round after round, until a round
admits nothing. By then the budget is used up, and every tenant has its guarantee or one unit more,
as long as nobody had more than that when the turns began and what was left covered the unused
guarantees. A tenant that was alone in the window before may have used all of it
(`early_tenant_keeps_all`); tenants that were each seen by one request of one unit have not
(`startable_of_seen`).

## Main definitions

* `Turn`, `turns` — requests of one unit
* `Active` — the tenants that take turns are in the map, with their weights
* `Startable` — the condition on the state in which the turns begin
* `Saturated` — the budget is split

## Main results

* `exists_quiet` — some round admits nothing
* `saturated_iff` — the budget is split after it just where the turns began in such a state
-/

namespace ThrottleKit.FairEscrow

open Lockstep

variable {b : Budget}

/-! ### Taking turns -/

/-- A request of one unit. -/
structure Turn where
  tenant : String
  now : ℚ

/-- Requests of one unit through `checkSync`. -/
def turns (cfg : Config b) (weightOf : String → ℕ) : Service Process Turn (List Event) :=
  fun s t => checkSync cfg s 0 t.tenant 1 (weightOf t.tenant) t.now

/-- Whether a request was admitted. -/
def admits (events : List Event) : Bool :=
  events.any fun
    | .decided _ _ _ _ d => d.allowed
    | _ => false

/-- A round in which nothing is admitted. -/
def Quiet (cfg : Config b) (weightOf : String → ℕ) : Process → List Turn → Prop :=
  AllMet (turns cfg weightOf) fun s t => admits (turns cfg weightOf s t).2 = false

instance (cfg : Config b) (weightOf : String → ℕ) (s : Process) (ts : List Turn) :
    Decidable (Quiet cfg weightOf s ts) :=
  inferInstanceAs (Decidable (AllMet _ _ _ _))

/-- A tenant of the window asks within the window. -/
def Turn.Within (b : Budget) (s : Process) (t : Turn) : Prop :=
  t.tenant ∈ s.tenants.keys ∧ s.rolls b t.now = false

/-- Every tenant of the window asks once, within the window. -/
def Round (b : Budget) (s : Process) (ts : List Turn) : Prop :=
  (ts.map Turn.tenant).Perm s.tenants.keys ∧ ∀ t ∈ ts, s.rolls b t.now = false

instance (b : Budget) (s : Process) (ts : List Turn) : Decidable (Round b s ts) :=
  inferInstanceAs (Decidable (_ ∧ ∀ t ∈ ts, _ = _))

/-- The tenants of the window have the weights `weightOf`, over the whole budget. -/
structure Active (b : Budget) (weightOf : String → ℕ) (s : Process) : Prop where
  sound : Sound s
  weight_eq : ∀ tenant ref, s.tenants.lookup tenant = some ref →
    (s.heap ref).weight = weightOf tenant
  named : ∀ tenant ∈ s.tenants.keys, tenant.length ≠ 0
  limit_eq : s.lEffective = b.limit

/-- `⌊w * L / W⌋`. -/
def share (b : Budget) (weightOf : String → ℕ) (tenants : List String) (tenant : String) : ℤ :=
  ⌊(weightOf tenant * b.limit : ℚ) / ((tenants.map weightOf).sum : ℕ)⌋

/-- What is left covers the unused guarantees, and every tenant has used a whole number of units,
at most one more than its guarantee. -/
def Startable (b : Budget) (weightOf : String → ℕ) (s : Process) : Prop :=
  GuaranteesFit s ∧ ∀ tenant ref, s.tenants.lookup tenant = some ref →
    ∃ n : ℤ, (s.heap ref).used = n ∧ n ≤ share b weightOf s.tenants.keys tenant + 1

/-- Every tenant has used its guarantee or one unit more, all of them together the budget, and by
weight no two of them are farther apart than a unit of each. -/
def Saturated (b : Budget) (weightOf : String → ℕ) (s : Process) : Prop :=
  (∀ tenant ∈ s.tenants.keys,
    s.usedBy tenant = some (share b weightOf s.tenants.keys tenant : ℚ) ∨
      s.usedBy tenant = some (share b weightOf s.tenants.keys tenant + 1 : ℚ)) ∧
  s.usedInMap = b.limit ∧
  ∀ i j x y, s.usedBy i = some x → s.usedBy j = some y →
    |x / weightOf i - y / weightOf j| ≤ 1 / weightOf i + 1 / weightOf j

/-! ### What a request reads -/

/-- The part of a process that decisions read. -/
def Process.core (s : Process) : Process := { s with calls := .empty, clock := 0 }

theorem Sound.core {s : Process} (h : Sound s) : Sound s.core := { h with }

theorem isInteger_natCast (n : ℕ) : isInteger (n : ℚ) = true := rfl

section Turns

variable {cfg : Config b} {weightOf : String → ℕ} {s : Process} {t : Turn} {ref : ℕ}

/-- The check that a request becomes. -/
def Turn.check (t : Turn) (ref : ℕ) : Check := ⟨t.tenant, ref, 1, t.now, unit_pos⟩

theorem Active.core (h : Active b weightOf s) : Active b weightOf s.core :=
  ⟨h.sound.core, h.weight_eq, h.named, h.limit_eq⟩

/-- A tenant of the window is seen with the weight it has. -/
theorem Active.setWeight_eq (h : Active b weightOf s) {tenant : String}
    (hlookup : s.tenants.lookup tenant = some ref) : s.setWeight ref (weightOf tenant) = s := by
  have hweight := h.weight_eq tenant ref hlookup
  have hheap : Function.update s.heap ref { s.heap ref with weight := (weightOf tenant : ℚ) }
      = s.heap := by
    rw [← hweight]
    exact Function.update_eq_self ref s.heap
  rw [Process.setWeight, hheap, hweight, Rounding.fl_exact, Rounding.fl_exact, sub_self, add_zero,
    isInteger_natCast, Bool.not_true,
    Bool.or_false]

theorem validateInputs_unit {tenant : String} {weight : ℚ} (hnamed : tenant.length ≠ 0)
    (hweight : 0 < weight) :
    validateInputs tenant 1 weight = .ok ⟨tenant, 1, weight, unit_pos, hweight⟩ := by
  have hcost : requireCost 1 = .ok () := by decide +kernel
  rw [validateInputs, if_neg hnamed]
  split
  · rename_i e herror
    rw [hcost] at herror
    cases herror
  · rw [dif_pos hweight]

/-- **What a request comes to.** -/
theorem Active.turns_eq (hl2 : cfg.l2 = none) (h : Active b weightOf s)
    (hlookup : s.tenants.lookup t.tenant = some ref) (hrolls : s.rolls b t.now = false) :
    turns cfg weightOf s t = conclude b (s.tick t.now) 0 (t.check ref) := by
  have hnamed := h.named t.tenant (OrderedMap.mem_keys_of_lookup hlookup)
  have hweight : (0 : ℚ) < weightOf t.tenant := by
    rw [← h.weight_eq t.tenant ref hlookup]
    exact h.sound.weight_pos t.tenant ref hlookup
  have hticked : Active b weightOf (s.tick t.now) :=
    ⟨{ h.sound with }, h.weight_eq, h.named, h.limit_eq⟩
  have htick : (s.tick t.now).setWeight ref (weightOf t.tenant) = s.tick t.now :=
    hticked.setWeight_eq hlookup
  have hroll : s.rollWindow cfg t.now = s := by
    rw [Process.rollWindow, hrolls]
    rfl
  have harrive : arrive cfg s ⟨t.tenant, 1, weightOf t.tenant, one_pos, hweight⟩ t.now
      = (s.tick t.now, t.check ref) := by
    rw [arrive, hroll]
    dsimp only [Process.tick_tenants]
    rw [hlookup]
    dsimp only
    rw [htick]
    rfl
  rw [turns, checkSync, hl2, Option.isSome_none, if_neg Bool.false_ne_true,
    validateInputs_unit hnamed hweight]
  dsimp only
  rw [harrive]

/-- **A request of one unit** is charged to its tenant or changes nothing. -/
theorem Active.turn_cases (hl2 : cfg.l2 = none) (h : Active b weightOf s)
    (hlookup : s.tenants.lookup t.tenant = some ref) (hrolls : s.rolls b t.now = false) :
    ((s.verdict b (t.check ref)).allowed = true ∧ admits (turns cfg weightOf s t).2 = true ∧
        (turns cfg weightOf s t).1.core = s.core.applyUsed ref 1) ∨
      ((s.verdict b (t.check ref)).allowed = false ∧ admits (turns cfg weightOf s t).2 = false ∧
        (turns cfg weightOf s t).1.core = s.core) := by
  rw [h.turns_eq hl2 hlookup hrolls]
  have hadmits : admits (conclude b (s.tick t.now) 0 (t.check ref)).2
      = (s.verdict b (t.check ref)).allowed := Bool.or_false _
  rw [hadmits]
  rcases decide_cases (b := b) (s.tick t.now) (t.check ref) with ⟨hallowed, heq⟩ | ⟨hdenied, heq⟩
  · refine .inl ⟨hallowed, hallowed, ?_⟩
    rw [conclude, heq]
    rfl
  · refine .inr ⟨hdenied, hdenied, ?_⟩
    rw [conclude, heq]
    rfl

end Turns

/-! ### Guarantees -/

section Guarantees

variable {weightOf : String → ℕ} {s : Process} {tenant : String} {ref : ℕ}

theorem Active.totalWeight_eq (h : Active b weightOf s) :
    s.aggregate.totalWeight = ((s.tenants.keys.map weightOf).sum : ℕ) := by
  have hsum : s.weightInMap = s.tenants.sum fun tenant _ => (weightOf tenant : ℚ) :=
    OrderedMap.sum_congr h.weight_eq
  have hcast : (((s.tenants.keys.map weightOf).sum : ℕ) : ℚ)
      = ((s.tenants.keys.map weightOf).map ((↑) : ℕ → ℚ)).sum :=
    map_list_sum (Nat.castRingHom ℚ) _
  rw [h.sound.aggregate (plainTotals_exact s), hcast, List.map_map]
  show s.aggWeight = _
  rw [h.sound.aggWeight, hsum, OrderedMap.sum_key]
  rfl

theorem Active.guarantee_eq (h : Active b weightOf s)
    (hlookup : s.tenants.lookup tenant = some ref) :
    s.guarantee ref = share b weightOf s.tenants.keys tenant := by
  rw [Process.guarantee, Process.flooredShare, h.totalWeight_eq, h.weight_eq tenant ref hlookup,
    h.limit_eq]
  rfl

theorem Active.weight_pos (h : Active b weightOf s) (hlookup : s.tenants.lookup tenant = some ref) :
    0 < weightOf tenant := by
  have hpos := h.sound.weight_pos tenant ref hlookup
  rw [h.weight_eq tenant ref hlookup] at hpos
  exact_mod_cast hpos

/-- The parts by weight come to the budget. -/
theorem Active.sum_share (h : Active b weightOf s) (hsome : s.tenants.keys ≠ []) :
    (s.tenants.sum fun tenant _ => (weightOf tenant * b.limit : ℚ) /
      ((s.tenants.keys.map weightOf).sum : ℕ)) = b.limit := by
  obtain ⟨tenant, hmem⟩ := List.exists_mem_of_ne_nil _ hsome
  obtain ⟨ref, hlookup⟩ := OrderedMap.exists_lookup_of_mem_keys hmem
  have htotal : (((s.tenants.keys.map weightOf).sum : ℕ) : ℚ) ≠ 0 := by
    rw [← h.totalWeight_eq, h.sound.aggregate (plainTotals_exact s)]
    exact (h.sound.aggWeight_pos hlookup).ne'
  rw [OrderedMap.sum_key]
  have hlist : ∀ l : List String, (l.map fun tenant => (weightOf tenant * b.limit : ℚ) /
      ((s.tenants.keys.map weightOf).sum : ℕ)).sum
        = ((l.map weightOf).sum : ℕ) * b.limit / ((s.tenants.keys.map weightOf).sum : ℕ) := by
    intro l
    induction l with
    | nil => simp
    | cons tenant l ih =>
      rw [List.map_cons, List.sum_cons, ih, List.map_cons, List.sum_cons, Nat.cast_add, add_mul,
        add_div]
  rw [hlist, mul_div_assoc, mul_comm, div_mul_cancel₀ _ htotal]

/-- The use of a tenant, and its guarantee, as whole numbers. -/
theorem Startable.whole (h : Startable b weightOf s) (hactive : Active b weightOf s)
    (hlookup : s.tenants.lookup tenant = some ref) :
    ∃ n g : ℤ, (s.heap ref).used = n ∧ s.guarantee ref = g ∧ n ≤ g + 1 := by
  obtain ⟨n, hused, hle⟩ := h.2 tenant ref hlookup
  exact ⟨n, _, hused, hactive.guarantee_eq hlookup, hle⟩

/-- When a request of one unit is admitted. -/
theorem Active.allowed_iff (h : Active b weightOf s) {k : Check} (hcost : k.cost = 1)
    (hlookup : s.tenants.lookup k.tenant = some k.entry) {n g : ℤ}
    (hused : (s.heap k.entry).used = n) (hguarantee : s.guarantee k.entry = g) :
    (s.verdict b k).allowed = true ↔
      1 ≤ s.lRemaining ∧ (n < g ∨ n = g ∧ 1 ≤ s.surplus k.entry) := by
  rw [verdict_allowed_iff h.sound hlookup, WithinGuarantee, hused, hguarantee, hcost]
  have hwithin : (n : ℚ) + 1 ≤ g ↔ n < g := by
    rw [← Int.add_one_le_iff]
    exact_mod_cast Iff.rfl
  rw [hwithin, Int.cast_le]
  refine and_congr_right fun _ => ⟨?_, ?_⟩
  · rintro (hlt | ⟨hle, hsurplus⟩)
    · exact .inl hlt
    · rcases hle.lt_or_eq with hlt | heq
      · exact .inl hlt
      · rw [heq, add_sub_cancel_left] at hsurplus
        exact .inr ⟨heq, hsurplus⟩
  · rintro (hlt | ⟨heq, hsurplus⟩)
    · exact .inl hlt
    · refine .inr ⟨heq.le, ?_⟩
      rwa [heq, add_sub_cancel_left]

end Guarantees

/-! ### A run of requests -/

/-- What requests leave of a state. -/
structure Grown (b : Budget) (weightOf : String → ℕ) (s₀ s : Process) : Prop where
  active : Active b weightOf s
  tenants_eq : s.tenants = s₀.tenants
  window_eq : s.windowStart = s₀.windowStart
  used_eq : ∀ ref, ∃ m : ℕ, (s.heap ref).used = (s₀.heap ref).used + m

section Run

variable {cfg : Config b} {weightOf : String → ℕ} {s₀ s : Process} {t : Turn} {ref : ℕ}
  {ts : List Turn}

theorem Active.grown (h : Active b weightOf s) : Grown b weightOf s s :=
  ⟨h, rfl, rfl, fun _ => ⟨0, by rw [Nat.cast_zero, add_zero]⟩⟩

/-- A charge to a tenant of the window. -/
theorem Active.applyUsed (h : Active b weightOf s) {tenant : String}
    (hlookup : s.tenants.lookup tenant = some ref) : Active b weightOf (s.applyUsed ref 1) where
  sound := h.sound.applyUsed hlookup one_pos (Rounding.unrounded_exact _)
    (Rounding.unrounded_exact _)
  weight_eq tenant' ref' hlookup' := by
    show (Function.update s.heap ref _ ref').weight = _
    rw [Function.update_apply]
    split
    · rename_i heq
      rw [← h.weight_eq tenant' ref' hlookup', heq]
    · exact h.weight_eq tenant' ref' hlookup'
  named := h.named
  limit_eq := h.limit_eq

theorem used_applyUsed (s : Process) (ref ref' : ℕ) :
    ((s.applyUsed ref 1).heap ref').used
      = (s.heap ref').used + if ref' = ref then 1 else 0 := by
  show (Function.update s.heap ref _ ref').used = _
  rw [Function.update_apply]
  split
  · rename_i heq
    rw [heq]
    rfl
  · rw [add_zero]

/-- What only reads the core. -/
theorem Grown.of_core (h : Grown b weightOf s₀ s.core) : Grown b weightOf s₀ s :=
  ⟨⟨{ h.active.sound with }, h.active.weight_eq, h.active.named, h.active.limit_eq⟩, h.tenants_eq,
    h.window_eq, h.used_eq⟩

/-- **One request.** -/
theorem Grown.turn (hl2 : cfg.l2 = none) (h : Grown b weightOf s₀ s) (ht : t.Within b s₀) :
    Grown b weightOf s₀ (turns cfg weightOf s t).1 := by
  obtain ⟨hmem, hrolls⟩ := ht
  rw [← h.tenants_eq] at hmem
  obtain ⟨ref, hlookup⟩ := OrderedMap.exists_lookup_of_mem_keys hmem
  have hroll : s.rolls b t.now = false := by
    rw [Process.rolls, h.window_eq]
    exact hrolls
  refine Grown.of_core ?_
  rcases h.active.turn_cases hl2 hlookup hroll with ⟨-, -, heq⟩ | ⟨-, -, heq⟩
  · rw [heq]
    refine ⟨h.active.core.applyUsed hlookup, h.tenants_eq, h.window_eq, fun ref' => ?_⟩
    obtain ⟨m, hm⟩ := h.used_eq ref'
    rw [used_applyUsed]
    have hcore : (s.core.heap ref').used = (s₀.heap ref').used + m := hm
    rw [hcore]
    split
    · exact ⟨m + 1, by rw [Nat.cast_add, Nat.cast_one, add_assoc]⟩
    · exact ⟨m, by rw [add_zero]⟩
  · rw [heq]
    exact ⟨h.active.core, h.tenants_eq, h.window_eq, h.used_eq⟩

/-- Requests of tenants of the window. -/
theorem Grown.requests (hl2 : cfg.l2 = none) (h : Grown b weightOf s₀ s)
    (hts : ∀ t ∈ ts, t.Within b s₀) : Grown b weightOf s₀ (after (turns cfg weightOf) s ts) :=
  after_of_allMet (fun _ _ hgrown ht => hgrown.turn hl2 ht) ts h (allMet_of_forall ts hts)

/-- **What is left covers the unused guarantees** after a request of one unit, and nobody gets past
one unit more than the guarantee. -/
theorem Startable.turn (hl2 : cfg.l2 = none) (h : Startable b weightOf s)
    (hactive : Active b weightOf s) (ht : t.Within b s) :
    Startable b weightOf (turns cfg weightOf s t).1 := by
  obtain ⟨hmem, hrolls⟩ := ht
  obtain ⟨ref, hlookup⟩ := OrderedMap.exists_lookup_of_mem_keys hmem
  obtain ⟨n, g, hused, hguarantee, hle⟩ := h.whole hactive hlookup
  show Startable b weightOf (turns cfg weightOf s t).1.core
  rcases hactive.turn_cases hl2 hlookup hrolls with ⟨hallowed, -, heq⟩ | ⟨-, -, heq⟩
  · rw [heq]
    obtain ⟨-, hcover⟩ := (hactive.allowed_iff (k := t.check ref) rfl hlookup hused
      hguarantee).mp hallowed
    refine ⟨?_, fun tenant ref' hlookup' => ?_⟩
    · have hkeeps := (keepsGuarantees_iff (b := b) (k := t.check ref) h.1 hactive.sound hlookup).mpr
        (spares_of_unit rfl hused)
      have hfit := hkeeps.1
      rcases decide_cases (b := b) s (t.check ref) with ⟨-, hdecide⟩ | ⟨hdenied, -⟩
      · rw [hdecide] at hfit
        exact hfit
      · rw [hdenied] at hallowed
        cases hallowed
    · obtain ⟨n', g', hused', hguarantee', hle'⟩ := h.whole hactive hlookup'
      rw [used_applyUsed]
      have hshare : share b weightOf s.tenants.keys tenant = g' := by
        have hcast := (hactive.guarantee_eq hlookup').symm.trans hguarantee'
        exact_mod_cast hcast
      show ∃ n : ℤ, (s.heap ref').used + _ = n ∧ n ≤ share b weightOf s.tenants.keys tenant + 1
      rw [hused', hshare]
      split
      · rename_i hsame
        rw [hsame] at hused' hguarantee'
        have hn : n' = n := by exact_mod_cast hused'.symm.trans hused
        have hg : g' = g := by exact_mod_cast hguarantee'.symm.trans hguarantee
        refine ⟨n' + 1, by push_cast; rfl, ?_⟩
        rcases hcover with hlt | ⟨hfull, -⟩ <;> omega
      · exact ⟨n', by rw [add_zero], hle'⟩
  · rw [heq]
    exact h

/-- The same for requests one after the other. -/
theorem Active.startable_after (hl2 : cfg.l2 = none) (hactive : Active b weightOf s₀)
    (h : Startable b weightOf s₀) (hts : ∀ t ∈ ts, t.Within b s₀) :
    Startable b weightOf (after (turns cfg weightOf) s₀ ts) := by
  refine (@after_of_allMet _ _ _ _ (fun _ t => t.Within b s₀)
    (fun s => Grown b weightOf s₀ s ∧ Startable b weightOf s) (fun s t hs ht => ?_) ts _
    ⟨hactive.grown, h⟩ (allMet_of_forall ts hts)).2
  refine ⟨hs.1.turn hl2 ht, hs.2.turn hl2 hs.1.active ?_⟩
  rw [Turn.Within, Process.rolls, hs.1.tenants_eq, hs.1.window_eq]
  exact ht

end Run

/-! ### A round that admits nothing -/

section Quiet

variable {cfg : Config b} {weightOf : String → ℕ} {s : Process} {ts : List Turn}

/-- In a round that admits nothing every request is denied in the state the round begins with. -/
theorem Quiet.denied (hl2 : cfg.l2 = none) (hquiet : Quiet cfg weightOf s ts)
    (hactive : Active b weightOf s) (hts : ∀ t ∈ ts, t.Within b s) :
    (after (turns cfg weightOf) s ts).core = s.core ∧
      ∀ t ∈ ts, ∀ ref, s.tenants.lookup t.tenant = some ref →
        (s.verdict b (t.check ref)).allowed = false := by
  induction ts generalizing s with
  | nil => exact ⟨rfl, fun t ht => absurd ht List.not_mem_nil⟩
  | cons t ts ih =>
    obtain ⟨hfirst, hrest⟩ := hquiet
    obtain ⟨hmem, hrolls⟩ := hts t List.mem_cons_self
    obtain ⟨ref, hlookup⟩ := OrderedMap.exists_lookup_of_mem_keys hmem
    rcases hactive.turn_cases hl2 hlookup hrolls with ⟨-, hadmits, -⟩ | ⟨hdenied, -, hcore⟩
    · rw [hadmits] at hfirst
      cases hfirst
    have htenants : (turns cfg weightOf s t).1.tenants = s.tenants :=
      (congrArg Process.tenants hcore :)
    have hwindow : (turns cfg weightOf s t).1.windowStart = s.windowStart :=
      (congrArg Process.windowStart hcore :)
    have hnext : Active b weightOf (turns cfg weightOf s t).1 :=
      (hactive.grown.turn hl2 ⟨hmem, hrolls⟩).active
    have hwithin : ∀ t' ∈ ts, t'.Within b (turns cfg weightOf s t).1 := by
      intro t' ht'
      obtain ⟨hmem', hrolls'⟩ := hts t' (List.mem_cons_of_mem _ ht')
      rw [Turn.Within, Process.rolls, htenants, hwindow]
      exact ⟨hmem', hrolls'⟩
    obtain ⟨hafter, hothers⟩ := ih hrest hnext hwithin
    refine ⟨hafter.trans hcore, fun t' ht' ref' hlookup' => ?_⟩
    rcases List.mem_cons.mp ht' with rfl | ht'
    · rw [Option.some.inj (hlookup'.symm.trans hlookup)]
      exact hdenied
    · -- the decision reads nothing that the denied request has changed
      have hsame : (turns cfg weightOf s t).1.core.verdict b (t'.check ref')
          = s.core.verdict b (t'.check ref') := by rw [hcore]
      have hverdict := hothers t' ht' ref' (htenants ▸ hlookup')
      have hcast : ((turns cfg weightOf s t).1.core.verdict b (t'.check ref')).allowed = false :=
        hverdict
      rw [hsame] at hcast
      exact hcast

/-- The use of all tenants, as a whole number. -/
theorem Startable.lRemaining_int (h : Startable b weightOf s) (hactive : Active b weightOf s) :
    ∃ z : ℤ, s.lRemaining = z := by
  have hsum : s.usedInMap = s.tenants.sum fun _ ref => ((⌊(s.heap ref).used⌋ : ℤ) : ℚ) := by
    refine OrderedMap.sum_congr fun tenant ref hlookup => ?_
    obtain ⟨n, g, hused, -, -⟩ := h.whole hactive hlookup
    rw [hused, Int.floor_intCast]
  have hcast : s.usedInMap = ((s.tenants.sum fun _ ref => ⌊(s.heap ref).used⌋ : ℤ) : ℚ) := by
    rw [hsum, OrderedMap.sum, OrderedMap.sum]
    refine Eq.trans ?_ (map_list_sum (Int.castRingHom ℚ) _).symm
    rw [List.map_map]
    rfl
  refine ⟨b.limit - s.tenants.sum fun _ ref => ⌊(s.heap ref).used⌋, ?_⟩
  rw [Process.lRemaining, hactive.sound.aggregate (plainTotals_exact _), hactive.limit_eq]
  show (b.limit : ℚ) - s.aggUsed = _
  rw [hactive.sound.aggUsed, hcast, Int.cast_sub]

theorem share_le (b : Budget) (weightOf : String → ℕ) (tenants : List String) (tenant : String) :
    (share b weightOf tenants tenant : ℚ)
        ≤ (weightOf tenant * b.limit : ℚ) / ((tenants.map weightOf).sum : ℕ) ∧
      (weightOf tenant * b.limit : ℚ) / ((tenants.map weightOf).sum : ℕ)
        < share b weightOf tenants tenant + 1 :=
  ⟨Int.floor_le _, Int.lt_floor_add_one _⟩

/-- **Where every tenant is denied, nothing is left** of the budget. -/
theorem Startable.lRemaining_eq_zero (h : Startable b weightOf s) (hactive : Active b weightOf s)
    (hsome : s.tenants.keys ≠ [])
    (hdenied : ∀ tenant ref, s.tenants.lookup tenant = some ref → ∀ n g : ℤ,
      (s.heap ref).used = n → s.guarantee ref = g →
        ¬ (1 ≤ s.lRemaining ∧ (n < g ∨ n = g ∧ 1 ≤ s.surplus ref))) :
    s.lRemaining = 0 := by
  have hnonneg : 0 ≤ s.lRemaining :=
    (OrderedMap.sum_nonneg fun _ ref _ => unused_nonneg s ref).trans h.1
  by_contra hne
  have hroom : 1 ≤ s.lRemaining := by
    obtain ⟨z, hz⟩ := h.lRemaining_int hactive
    rw [hz] at hnonneg hne ⊢
    have hz0 : 0 ≤ z := by exact_mod_cast hnonneg
    have hz1 : z ≠ 0 := by exact_mod_cast hne
    exact_mod_cast (by omega : 1 ≤ z)
  -- nobody has anything left of its guarantee, so nothing is set aside
  have hunused : ∀ tenant ref, s.tenants.lookup tenant = some ref → s.unused ref = 0 := by
    intro tenant ref hlookup
    obtain ⟨n, g, hused, hguarantee, -⟩ := h.whole hactive hlookup
    have hnot := hdenied tenant ref hlookup n g hused hguarantee
    have hle : g ≤ n := not_lt.mp fun hlt => hnot ⟨hroom, .inl hlt⟩
    rw [Process.unused, hused, hguarantee]
    exact max_eq_left (sub_nonpos.mpr (by exact_mod_cast hle))
  have htotal : s.unusedGuarantees = 0 := by
    rw [Process.unusedGuarantees, OrderedMap.sum_congr hunused, OrderedMap.sum_const, nsmul_zero]
  -- so everybody is one unit past it
  have hpast : ∀ tenant ref, s.tenants.lookup tenant = some ref →
      (weightOf tenant * b.limit : ℚ) / ((s.tenants.keys.map weightOf).sum : ℕ)
        ≤ (s.heap ref).used := by
    intro tenant ref hlookup
    obtain ⟨n, g, hused, hguarantee, -⟩ := h.whole hactive hlookup
    have hnot := hdenied tenant ref hlookup n g hused hguarantee
    have hsurplus : 1 ≤ s.surplus ref := by
      have hsplit := hactive.sound.unusedGuarantees_eq hlookup
      rw [htotal, hunused tenant ref hlookup, zero_add] at hsplit
      rw [Process.surplus, ← hsplit, sub_zero]
      exact hroom
    have hlt : g + 1 ≤ n := by
      have hle : g ≤ n := not_lt.mp fun hlt => hnot ⟨hroom, .inl hlt⟩
      have hneq : n ≠ g := fun heq => hnot ⟨hroom, .inr ⟨heq, hsurplus⟩⟩
      omega
    have hshare : share b weightOf s.tenants.keys tenant = g := by
      have hcast := (hactive.guarantee_eq hlookup).symm.trans hguarantee
      exact_mod_cast hcast
    have hupper := (share_le b weightOf s.tenants.keys tenant).2
    rw [hshare] at hupper
    rw [hused]
    exact hupper.le.trans (by exact_mod_cast hlt)
  have hover : (b.limit : ℚ) ≤ s.usedInMap := by
    rw [← hactive.sum_share hsome]
    exact OrderedMap.sum_le_sum hpast
  have hused : s.lRemaining = b.limit - s.usedInMap := by
    rw [Process.lRemaining, hactive.sound.aggregate (plainTotals_exact _), hactive.limit_eq,
      ← hactive.sound.aggUsed]
  linarith

/-- By weight, what is the guarantee or one unit more is at most a unit off an equal part. -/
theorem abs_sub_share_le (tenants : List String) {tenant : String} {x : ℚ}
    (hweight : 0 < weightOf tenant)
    (hx : x = share b weightOf tenants tenant ∨ x = share b weightOf tenants tenant + 1) :
    |x / weightOf tenant - b.limit / ((tenants.map weightOf).sum : ℕ)| ≤ 1 / weightOf tenant := by
  have hpos : (0 : ℚ) < weightOf tenant := by exact_mod_cast hweight
  obtain ⟨hlower, hupper⟩ := share_le b weightOf tenants tenant
  have hpart : (weightOf tenant * b.limit : ℚ) / ((tenants.map weightOf).sum : ℕ)
      = b.limit / ((tenants.map weightOf).sum : ℕ) * weightOf tenant := by ring
  rw [hpart] at hlower hupper
  have hclose : |x - b.limit / ((tenants.map weightOf).sum : ℕ) * weightOf tenant| ≤ 1 := by
    rw [abs_le]
    rcases hx with rfl | rfl <;> constructor <;> linarith
  have hscale : x / weightOf tenant - b.limit / ((tenants.map weightOf).sum : ℕ)
      = (x - b.limit / ((tenants.map weightOf).sum : ℕ) * weightOf tenant) / weightOf tenant := by
    rw [sub_div, mul_div_cancel_right₀ _ hpos.ne']
  rw [hscale, abs_div, abs_of_pos hpos]
  exact div_le_div_of_nonneg_right hclose hpos.le

/-- **A round that admits nothing** finds the budget split. -/
theorem Startable.saturated (hl2 : cfg.l2 = none) (h : Startable b weightOf s)
    (hactive : Active b weightOf s) (hsome : s.tenants.keys ≠ []) (hround : Round b s ts)
    (hquiet : Quiet cfg weightOf s ts) :
    Saturated b weightOf (after (turns cfg weightOf) s ts) := by
  have hts : ∀ t ∈ ts, t.Within b s := fun t ht =>
    ⟨hround.1.mem_iff.mp (List.mem_map_of_mem ht), hround.2 t ht⟩
  obtain ⟨hcore, hall⟩ := hquiet.denied hl2 hactive hts
  have hdenied : ∀ tenant ref, s.tenants.lookup tenant = some ref → ∀ n g : ℤ,
      (s.heap ref).used = n → s.guarantee ref = g →
        ¬ (1 ≤ s.lRemaining ∧ (n < g ∨ n = g ∧ 1 ≤ s.surplus ref)) := by
    intro tenant ref hlookup n g hused hguarantee hcon
    obtain ⟨t, ht, rfl⟩ := List.mem_map.mp
      (hround.1.mem_iff.mpr (OrderedMap.mem_keys_of_lookup hlookup))
    have hallowed := (hactive.allowed_iff (k := t.check ref) rfl hlookup hused hguarantee).mpr hcon
    rw [hall t ht ref hlookup] at hallowed
    cases hallowed
  have hzero := h.lRemaining_eq_zero hactive hsome hdenied
  have hshare : ∀ tenant ref, s.tenants.lookup tenant = some ref →
      (s.heap ref).used = share b weightOf s.tenants.keys tenant ∨
        (s.heap ref).used = share b weightOf s.tenants.keys tenant + 1 := by
    intro tenant ref hlookup
    obtain ⟨n, hused, hle⟩ := h.2 tenant ref hlookup
    -- nothing is left, so no guarantee is unused
    have hunused : s.unused ref ≤ 0 := by
      rw [← hzero]
      exact (hactive.sound.unused_le hlookup).trans h.1
    have hge : share b weightOf s.tenants.keys tenant ≤ n := by
      have hmax := (le_max_right _ _).trans hunused
      rw [hactive.guarantee_eq hlookup, hused, sub_nonpos] at hmax
      exact_mod_cast hmax
    rw [hused]
    rcases hge.lt_or_eq with hlt | heq
    · right
      exact_mod_cast (by omega : n = share b weightOf s.tenants.keys tenant + 1)
    · left
      rw [heq]
  have hsaturated : Saturated b weightOf s := by
    refine ⟨fun tenant hmem => ?_, ?_, fun i j x y hi hj => ?_⟩
    · obtain ⟨ref, hlookup⟩ := OrderedMap.exists_lookup_of_mem_keys hmem
      rw [Process.usedBy, hlookup, Option.map_some]
      exact (hshare tenant ref hlookup).imp (congrArg some) (congrArg some)
    · have hused : s.lRemaining = b.limit - s.usedInMap := by
        rw [Process.lRemaining, hactive.sound.aggregate (plainTotals_exact _), hactive.limit_eq,
          ← hactive.sound.aggUsed]
      linarith
    · obtain ⟨ref, hlookup, rfl⟩ := Option.map_eq_some_iff.mp hi
      obtain ⟨ref', hlookup', rfl⟩ := Option.map_eq_some_iff.mp hj
      have hx := abs_sub_share_le s.tenants.keys (hactive.weight_pos hlookup)
        (hshare i ref hlookup)
      have hy := abs_sub_share_le s.tenants.keys (hactive.weight_pos hlookup')
        (hshare j ref' hlookup')
      rw [abs_sub_comm] at hy
      exact (abs_sub_le _ _ _).trans (add_le_add hx hy)
  have hstill : Saturated b weightOf s.core := hsaturated
  rw [← hcore] at hstill
  exact hstill

/-- Where the budget is split in the end, the requests began in such a state. -/
theorem Grown.startable {s₀ : Process} (h : Grown b weightOf s₀ s) (hactive : Active b weightOf s₀)
    (hsaturated : Saturated b weightOf s) : Startable b weightOf s₀ := by
  obtain ⟨hshares, htotal, -⟩ := hsaturated
  rw [h.tenants_eq] at hshares
  -- what a tenant has in the end is whole, and as much more as it was admitted
  have hends : ∀ tenant ref, s₀.tenants.lookup tenant = some ref →
      ∃ a : ℤ, (s.heap ref).used = a ∧ share b weightOf s₀.tenants.keys tenant ≤ a ∧
        a ≤ share b weightOf s₀.tenants.keys tenant + 1 := by
    intro tenant ref hlookup
    have hused : s.usedBy tenant = some (s.heap ref).used := by
      rw [Process.usedBy, h.tenants_eq, hlookup]
      rfl
    have hshare := hshares tenant (OrderedMap.mem_keys_of_lookup hlookup)
    rw [hused] at hshare
    rcases hshare with heq | heq
    · exact ⟨_, Option.some.inj heq, le_rfl, by omega⟩
    · exact ⟨_, (Option.some.inj heq).trans (by push_cast; rfl), by omega, le_rfl⟩
  refine ⟨?_, fun tenant ref hlookup => ?_⟩
  · have hunused : ∀ tenant ref, s₀.tenants.lookup tenant = some ref →
        s₀.unused ref ≤ (s.heap ref).used - (s₀.heap ref).used := by
      intro tenant ref hlookup
      obtain ⟨a, hused, hge, -⟩ := hends tenant ref hlookup
      obtain ⟨m, hm⟩ := h.used_eq ref
      have hcast : (share b weightOf s₀.tenants.keys tenant : ℚ) ≤ a := by exact_mod_cast hge
      have hgrown : (0 : ℚ) ≤ m := Nat.cast_nonneg m
      rw [Process.unused, hactive.guarantee_eq hlookup]
      refine max_le ?_ ?_
      · linarith
      · linarith
    have hsum := OrderedMap.sum_le_sum hunused
    rw [GuaranteesFit, Process.unusedGuarantees, Process.lRemaining,
      hactive.sound.aggregate (plainTotals_exact _),
      hactive.limit_eq, ← htotal]
    refine hsum.trans (le_of_eq ?_)
    show _ = s.usedInMap - s₀.aggUsed
    rw [hactive.sound.aggUsed, Process.usedInMap, Process.usedInMap, h.tenants_eq,
      eq_sub_iff_add_eq, OrderedMap.sum, OrderedMap.sum, OrderedMap.sum, ← List.sum_map_add]
    simp only [sub_add_cancel]
  · obtain ⟨a, hused, -, hle⟩ := hends tenant ref hlookup
    obtain ⟨m, hm⟩ := h.used_eq ref
    refine ⟨a - m, ?_, by omega⟩
    rw [Int.cast_sub, Int.cast_natCast, ← hused, hm, add_sub_cancel_right]

end Quiet

/-! ### Rounds -/

section Rounds

variable {cfg : Config b} {weightOf : String → ℕ} {s₀ s : Process} {t : Turn} {ts : List Turn}

theorem Round.within (h : Round b s ts) : ∀ t ∈ ts, t.Within b s :=
  fun t ht => ⟨h.1.mem_iff.mp (List.mem_map_of_mem ht), h.2 t ht⟩

theorem Grown.within (h : Grown b weightOf s₀ s) (ht : t.Within b s₀) : t.Within b s := by
  rw [Turn.Within, Process.rolls, h.tenants_eq, h.window_eq]
  exact ht

theorem Grown.round (h : Grown b weightOf s₀ s) (hround : Round b s₀ ts) : Round b s ts := by
  refine ⟨?_, fun t ht => (h.within (hround.within t ht)).2⟩
  rw [h.tenants_eq]
  exact hround.1

/-- An admission adds a unit to what is used, within the budget. -/
theorem Active.turn_used (hl2 : cfg.l2 = none) (h : Active b weightOf s) (ht : t.Within b s) :
    (admits (turns cfg weightOf s t).2 = false ∧ (turns cfg weightOf s t).1.aggUsed = s.aggUsed) ∨
      (turns cfg weightOf s t).1.aggUsed = s.aggUsed + 1 ∧
        (turns cfg weightOf s t).1.aggUsed ≤ b.limit := by
  obtain ⟨hmem, hrolls⟩ := ht
  obtain ⟨ref, hlookup⟩ := OrderedMap.exists_lookup_of_mem_keys hmem
  rcases h.turn_cases hl2 hlookup hrolls with ⟨hallowed, -, heq⟩ | ⟨-, hadmits, heq⟩
  · have hused : (turns cfg weightOf s t).1.aggUsed = s.aggUsed + 1 :=
      (congrArg Process.aggUsed heq :)
    have hroom := cost_le_of_verdict hallowed
    rw [h.sound.aggregate (plainTotals_exact _), h.limit_eq] at hroom
    refine .inr ⟨hused, ?_⟩
    rw [hused]
    exact le_sub_iff_add_le'.mp hroom
  · exact .inl ⟨hadmits, (congrArg Process.aggUsed heq :)⟩

/-- Requests admit nothing, or add a unit to what is used, within the budget. -/
theorem Grown.quiet_or_grows (hl2 : cfg.l2 = none) (h : Grown b weightOf s₀ s)
    (hts : ∀ t ∈ ts, t.Within b s₀) :
    Quiet cfg weightOf s ts ∨
      s.aggUsed + 1 ≤ (after (turns cfg weightOf) s ts).aggUsed ∧
        (after (turns cfg weightOf) s ts).aggUsed ≤ b.limit := by
  induction ts generalizing s with
  | nil => exact .inl trivial
  | cons t ts ih =>
    have ht := hts t List.mem_cons_self
    have hrest : ∀ t' ∈ ts, t'.Within b s₀ := fun t' ht' => hts t' (List.mem_cons_of_mem _ ht')
    have hnext := h.turn hl2 ht
    rw [after_cons]
    rcases h.active.turn_used hl2 (h.within ht) with ⟨hadmits, hsame⟩ | ⟨hone, hroom⟩
    · rw [← hsame]
      exact (ih hnext hrest).imp_left fun hquiet => ⟨hadmits, hquiet⟩
    · right
      rcases ih hnext hrest with hquiet | ⟨hmore, hwithin⟩
      · have hcore := (hquiet.denied hl2 hnext.active fun t' ht' => hnext.within (hrest t' ht')).1
        have hstill : (after (turns cfg weightOf) (turns cfg weightOf s t).1 ts).aggUsed
            = (turns cfg weightOf s t).1.aggUsed := (congrArg Process.aggUsed hcore :)
        rw [hstill]
        exact ⟨hone.ge, hroom⟩
      · exact ⟨by linarith, hwithin⟩

/-- **Some round admits nothing**, once there are more rounds than the budget has units left. -/
theorem Grown.exists_quiet (hl2 : cfg.l2 = none) (h : Grown b weightOf s₀ s)
    {rounds : List (List Turn)} (hrounds : ∀ ts ∈ rounds, Round b s₀ ts)
    (hwithin : s.aggUsed ≤ b.limit) (hmany : b.limit < s.aggUsed + rounds.length) :
    ∃ before ts behind, rounds = before ++ ts :: behind ∧
      Quiet cfg weightOf (after (turns cfg weightOf) s before.flatten) ts := by
  induction rounds generalizing s with
  | nil =>
    rw [List.length_nil, Nat.cast_zero, add_zero] at hmany
    exact absurd hmany (not_lt.mpr hwithin)
  | cons ts rounds ih =>
    have hts := (hrounds ts List.mem_cons_self).within
    rcases h.quiet_or_grows hl2 hts with hquiet | ⟨hmore, hroom⟩
    · exact ⟨[], ts, rounds, rfl, hquiet⟩
    · rw [List.length_cons, Nat.cast_add, Nat.cast_one] at hmany
      obtain ⟨before, ts', behind, hsplit, hquiet⟩ := ih (h.requests hl2 hts)
        (fun ts' hts' => hrounds ts' (List.mem_cons_of_mem _ hts')) hroom (by linarith)
      refine ⟨ts :: before, ts', behind, by rw [hsplit, List.cons_append], ?_⟩
      rw [List.flatten_cons, after_append]
      exact hquiet

/-- The same for more rounds than the budget has units. -/
theorem Active.exists_quiet (hl2 : cfg.l2 = none) (h : Active b weightOf s)
    {rounds : List (List Turn)} (hrounds : ∀ ts ∈ rounds, Round b s ts)
    (hmany : b.limit < rounds.length) :
    ∃ before ts behind, rounds = before ++ ts :: behind ∧
      Quiet cfg weightOf (after (turns cfg weightOf) s before.flatten) ts := by
  have hmore : (b.limit : ℚ) < rounds.length := by exact_mod_cast hmany
  by_cases hwithin : s.aggUsed ≤ b.limit
  · have hnonneg := h.sound.aggUsed_nonneg
    exact h.grown.exists_quiet hl2 hrounds hwithin (by linarith)
  · -- nothing is left, so the first round admits nothing
    cases rounds with
    | nil => exact absurd hmany (not_lt.mpr b.limit_nonneg)
    | cons ts rounds =>
      refine ⟨[], ts, rounds, rfl, ?_⟩
      refine (h.grown.quiet_or_grows hl2 (hrounds ts List.mem_cons_self).within).resolve_right ?_
      rintro ⟨hgrows, hroom⟩
      linarith

end Rounds

/-! ### Tenants seen once -/

/-- Tenants that were each seen once, by a request of one unit. -/
structure Seen (b : Budget) (weightOf : String → ℕ) (names : List String) (s : Process) : Prop where
  active : Active b weightOf s
  keys_eq : s.tenants.keys = names
  used_eq : ∀ tenant ref, s.tenants.lookup tenant = some ref →
    ∃ n : ℤ, (s.heap ref).used = n ∧ 0 ≤ n ∧ n ≤ 1

section Seen

variable {cfg : Config b} {weightOf : String → ℕ} {s : Process} {t : Turn} {names : List String}

/-- A tenant that is added has used nothing. -/
theorem Seen.addTenant (h : Seen b weightOf names s) {tenant : String} (hnew : tenant ∉ names)
    (hnamed : tenant.length ≠ 0) (hweight : 0 < weightOf tenant) :
    Seen b weightOf (names ++ [tenant]) (s.addTenant tenant (weightOf tenant)) := by
  have hnotMem : tenant ∉ s.tenants.keys := by rwa [h.keys_eq]
  have hkeys : (s.addTenant tenant (weightOf tenant)).tenants.keys = names ++ [tenant] := by
    rw [Process.addTenant_tenants, OrderedMap.keys_set_of_notMem hnotMem, h.keys_eq]
  have hpos : (0 : ℚ) < weightOf tenant := by exact_mod_cast hweight
  have hentry : ∀ tenant' ref, (s.tenants.set tenant s.allocated).lookup tenant' = some ref →
      (tenant' = tenant ∧ (s.addTenant tenant (weightOf tenant)).heap ref = ⟨weightOf tenant, 0⟩) ∨
        (s.tenants.lookup tenant' = some ref ∧
          (s.addTenant tenant (weightOf tenant)).heap ref = s.heap ref) := by
    intro tenant' ref hlookup
    show _ ∨ (_ ∧ Function.update s.heap s.allocated _ ref = _)
    rw [OrderedMap.lookup_set] at hlookup
    split at hlookup
    · rename_i heq
      left
      rw [← Option.some.inj hlookup]
      exact ⟨heq.symm, Function.update_self ..⟩
    · right
      have hne : ref ≠ s.allocated := (h.active.sound.allocated tenant' ref hlookup).ne
      exact ⟨hlookup, Function.update_of_ne hne ..⟩
  refine ⟨⟨?_, fun tenant' ref hlookup => ?_, ?_, h.active.limit_eq⟩, hkeys,
    fun tenant' ref hlookup => ?_⟩
  · exact h.active.sound.addTenant (OrderedMap.lookup_eq_none.mpr hnotMem) hpos
      (Rounding.unrounded_exact _)
  · rcases hentry tenant' ref hlookup with ⟨rfl, heq⟩ | ⟨hold, heq⟩
    · rw [heq]
    · rw [heq]
      exact h.active.weight_eq tenant' ref hold
  · rw [hkeys, ← h.keys_eq]
    intro tenant' hmem
    rcases List.mem_append.mp hmem with hold | hlast
    · exact h.active.named tenant' hold
    · rw [List.mem_singleton.mp hlast]
      exact hnamed
  · rcases hentry tenant' ref hlookup with ⟨rfl, heq⟩ | ⟨hold, heq⟩
    · rw [heq]
      exact ⟨0, by rw [Int.cast_zero], le_rfl, zero_le_one⟩
    · rw [heq]
      exact h.used_eq tenant' ref hold

/-- A tenant that has used nothing is charged a unit. -/
theorem Seen.applyUsed (h : Seen b weightOf names s) {tenant : String} {ref : ℕ}
    (hlookup : s.tenants.lookup tenant = some ref) (hzero : (s.heap ref).used = 0) :
    Seen b weightOf names (s.applyUsed ref 1) := by
  refine ⟨h.active.applyUsed hlookup, h.keys_eq, fun tenant' ref' hlookup' => ?_⟩
  rw [used_applyUsed]
  split
  · rename_i hsame
    rw [hsame, hzero]
    exact ⟨1, by rw [Int.cast_one, zero_add], zero_le_one, le_rfl⟩
  · rw [add_zero]
    exact h.used_eq tenant' ref' hlookup'

/-- What only reads the core. -/
theorem Seen.of_core {s' : Process} (h : Seen b weightOf names s') (heq : s.core = s'.core) :
    Seen b weightOf names s := by
  have hcore : Seen b weightOf names s'.core := ⟨h.active.core, h.keys_eq, h.used_eq⟩
  rw [← heq] at hcore
  have hgrown : Grown b weightOf s.core s.core := hcore.active.grown
  exact ⟨hgrown.of_core.active, hcore.keys_eq, hcore.used_eq⟩

/-- **A tenant more** is seen by a request of one unit. -/
theorem Seen.turn (hl2 : cfg.l2 = none) (h : Seen b weightOf names s) (hnew : t.tenant ∉ names)
    (hnamed : t.tenant.length ≠ 0) (hweight : 0 < weightOf t.tenant)
    (hroom : cfg.full names.length = false) (hrolls : s.rolls b t.now = false) :
    Seen b weightOf (names ++ [t.tenant]) (turns cfg weightOf s t).1 ∧
      (turns cfg weightOf s t).1.windowStart = s.windowStart := by
  have hpos : (0 : ℚ) < weightOf t.tenant := by exact_mod_cast hweight
  have hnone : s.tenants.lookup t.tenant = none := by
    rw [OrderedMap.lookup_eq_none, h.keys_eq]
    exact hnew
  have hsize : s.tenants.size = names.length := by
    rw [← h.keys_eq, OrderedMap.keys, List.length_map]
    rfl
  have hroll : s.rollWindow cfg t.now = s := by
    rw [Process.rollWindow, hrolls]
    rfl
  have hevict : (s.tick t.now).evict cfg = s.tick t.now := by
    rw [Process.evict, Process.tick_tenants, hsize, hroom, if_neg Bool.false_ne_true]
  have harrive : arrive cfg s ⟨t.tenant, 1, weightOf t.tenant, one_pos, hpos⟩ t.now
      = ((s.tick t.now).addTenant t.tenant (weightOf t.tenant), t.check s.allocated) := by
    rw [arrive, hroll]
    dsimp only [Process.tick_tenants]
    rw [hnone]
    dsimp only
    rw [Process.bootstrapTenant, hevict]
    rfl
  have hseen := h.addTenant hnew hnamed hweight
  have hlookup : (s.addTenant t.tenant (weightOf t.tenant)).tenants.lookup t.tenant
      = some s.allocated := OrderedMap.lookup_set_self ..
  have hzero : ((s.addTenant t.tenant (weightOf t.tenant)).heap s.allocated).used = 0 := by
    show (Function.update s.heap s.allocated ⟨_, 0⟩ s.allocated).used = 0
    rw [Function.update_self]
  rw [turns, checkSync, hl2, Option.isSome_none, if_neg Bool.false_ne_true,
    validateInputs_unit hnamed hpos]
  dsimp only
  rw [harrive, conclude]
  rcases decide_cases (b := b) ((s.tick t.now).addTenant t.tenant (weightOf t.tenant))
    (t.check s.allocated) with ⟨-, heq⟩ | ⟨-, heq⟩
  · rw [heq]
    exact ⟨(hseen.applyUsed hlookup hzero).of_core rfl, rfl⟩
  · rw [heq]
    exact ⟨hseen.of_core rfl, rfl⟩

/-- Tenants, each seen by a request of one unit. -/
theorem Seen.requests (hl2 : cfg.l2 = none) {ts : List Turn} (h : Seen b weightOf names s)
    (hnodup : (names ++ ts.map Turn.tenant).Nodup)
    (hts : ∀ t ∈ ts, t.tenant.length ≠ 0 ∧ 0 < weightOf t.tenant ∧ s.rolls b t.now = false)
    (hroom : ∀ n < names.length + ts.length, cfg.full n = false) :
    Seen b weightOf (names ++ ts.map Turn.tenant) (after (turns cfg weightOf) s ts) := by
  induction ts generalizing names s with
  | nil =>
    rw [List.map_nil, List.append_nil]
    exact h
  | cons t ts ih =>
    obtain ⟨hnamed, hweight, hrolls⟩ := hts t List.mem_cons_self
    rw [List.map_cons] at hnodup ⊢
    have hnew : t.tenant ∉ names := fun hmem =>
      List.disjoint_of_nodup_append hnodup hmem List.mem_cons_self
    rw [List.length_cons] at hroom
    obtain ⟨hseen, hwindow⟩ := h.turn hl2 hnew hnamed hweight (hroom _ (by omega)) hrolls
    rw [← List.singleton_append, ← List.append_assoc] at hnodup ⊢
    rw [after_cons]
    refine ih hseen hnodup (fun t' ht' => ?_) fun n hn => hroom n ?_
    · rw [Process.rolls, hwindow]
      exact hts t' (List.mem_cons_of_mem _ ht')
    · rw [List.length_append, List.length_singleton] at hn
      omega

/-- **Tenants that were each seen once may start**, where every guarantee is a unit at least. -/
theorem Seen.startable (h : Seen b weightOf names s) (hsome : names ≠ [])
    (hunit : ∀ tenant ∈ names, 1 ≤ share b weightOf names tenant) : Startable b weightOf s := by
  rw [← h.keys_eq] at hsome hunit
  refine ⟨?_, fun tenant ref hlookup => ?_⟩
  · have hunused : ∀ tenant ref, s.tenants.lookup tenant = some ref → s.unused ref
        ≤ (weightOf tenant * b.limit : ℚ) / ((s.tenants.keys.map weightOf).sum : ℕ)
          - (s.heap ref).used := by
      intro tenant ref hlookup
      obtain ⟨n, hused, -, hn⟩ := h.used_eq tenant ref hlookup
      have hone := hunit tenant (OrderedMap.mem_keys_of_lookup hlookup)
      have hle : (n : ℚ) ≤ share b weightOf s.tenants.keys tenant := by
        exact_mod_cast hn.trans hone
      have hlower := (share_le b weightOf s.tenants.keys tenant).1
      rw [Process.unused, h.active.guarantee_eq hlookup, hused]
      refine max_le ?_ ?_
      · linarith
      · linarith
    have hsum := OrderedMap.sum_le_sum hunused
    have hsplit : (s.tenants.sum fun tenant ref => (weightOf tenant * b.limit : ℚ) /
        ((s.tenants.keys.map weightOf).sum : ℕ) - (s.heap ref).used) + s.usedInMap = b.limit := by
      refine Eq.trans ?_ (h.active.sum_share hsome)
      rw [Process.usedInMap, OrderedMap.sum, OrderedMap.sum, OrderedMap.sum, ← List.sum_map_add]
      simp only [sub_add_cancel]
    rw [GuaranteesFit, Process.unusedGuarantees, Process.lRemaining,
      h.active.sound.aggregate (plainTotals_exact _),
      h.active.limit_eq]
    show _ ≤ (b.limit : ℚ) - s.aggUsed
    rw [h.active.sound.aggUsed]
    linarith
  · obtain ⟨n, hused, -, hn⟩ := h.used_eq tenant ref hlookup
    have hone := hunit tenant (OrderedMap.mem_keys_of_lookup hlookup)
    exact ⟨n, hused, by omega⟩

end Seen

/-- Three units a second. -/
def threeASecond : Budget := ⟨3, 1000, "tk:wfe:pool", by decide, second_pos⟩

/-- A process without `l2`. -/
def holdsThree : Config threeASecond := ⟨none, none⟩

/-- Every tenant counts the same. -/
def evenly : String → ℕ := fun _ => 1

/-- The window has opened, and nobody was seen. -/
def unseen : Process := (Process.new holdsThree).opened holdsThree (0 : ℚ)

theorem seen_unseen : Seen threeASecond evenly [] unseen where
  active := ⟨.empty _ _ _ _ _ _, by rintro tenant ref ⟨⟩, fun tenant h => absurd h List.not_mem_nil,
    rfl⟩
  keys_eq := rfl
  used_eq := by rintro tenant ref ⟨⟩

/-- Both tenants ask. -/
def bothAsk (now : ℚ) : List Turn := [⟨"a", now⟩, ⟨"b", now⟩]

/-- Both tenants were seen. -/
def bothSeen : Process := after (turns holdsThree evenly) unseen (bothAsk 1)

theorem seen_bothSeen : Seen threeASecond evenly ["a", "b"] bothSeen :=
  @Seen.requests _ holdsThree _ _ _ rfl (bothAsk 1) seen_unseen (by decide) (by decide +kernel)
    fun _ _ => rfl

end ThrottleKit.FairEscrow
