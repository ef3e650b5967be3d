import ThrottleKit.Lib.Lockstep
import ThrottleKit.TwoTier.FairEscrowAggregates

/-!
# Weighted fair escrow over a store of its own

With `l2` the effective limit starts at zero and grows by leases. Here one process answers checks
one at a time over a store that nobody else uses, with the whole budget as its lease size: the first
check of a window that the budget covers leases all of it, and from then on the process is in the
state of one without `l2`. A check before that, one larger than the budget, is refused by the store
and would have been denied by the cap.

The clock is read once a check, so the store applies a lease in the window the check was made in.
The TTL of the store's state may run out at any time from the end of its window on. The process and
the store each find out the window in a way of their own, and by doubles they may disagree
(`store_splits_window`).

## Main definitions

* `limiter` — a process and its store, answering one check at a time
* `withoutL2`, `withL2` — the two limiters
* `Undivided` — the process and the store are in one window
* `InStep` — what relates their states

## Main results

* `withL2_eq_withoutL2` — the same decisions and used amounts, and no check waits for ever
-/

namespace ThrottleKit.FairEscrow

open Lockstep Machine Rounding

section Rounded

variable [Rounding] {b : Budget}

/-! ### One check at a time -/

/-- A process and its store, as one machine. -/
def alone (cfg : Config b) : Machine (L2 × Process) Act Event :=
  fun s a => (step cfg s.1 s.2 a).map fun r => ((r.1, r.2.1), r.2.2)

/-- The check goes on until it returns, over at most so many leases. -/
def untilReturn (cfg : Config b) : ℕ → L2 × Process → Option ((L2 × Process) × List Event)
  | 0, s => if (s.2.calls.lookup 0).isSome then none else some (s, [])
  | leases + 1, s =>
    if (s.2.calls.lookup 0).isSome then
      ((alone cfg).exec s [.serve 0, .resume 0]).bind fun r =>
        (untilReturn cfg leases r.1).map fun q => (q.1, r.2 ++ q.2)
    else some (s, [])

/-- A check with nothing else going on until it returns. -/
def runAlone (cfg : Config b) (leases : ℕ) (s : L2 × Process) (tenant : String)
    (cost weight now : ℚ) : Option ((L2 × Process) × List Event) :=
  (alone cfg s (.check 0 tenant cost weight now)).bind fun r =>
    (untilReturn cfg leases r.1).map fun q => (q.1, r.2 ++ q.2)

/-- A check, or the TTL of the shared state running out at the store. -/
inductive Ask
  | check (tenant : String) (cost weight now : ℚ)
  | expire (now : ℚ)

def Ask.time : Ask → ℚ
  | .check _ _ _ now | .expire now => now

/-- What is said to it. -/
inductive Said
  | threw (error : CheckError)
  | decided (allowed : Bool)
  | expired

/-- What a check said. -/
def saidBy (events : List Event) : Option Said :=
  events.findSome? fun
    | .decided _ _ _ _ d | .refused _ _ d => some (.decided d.allowed)
    | .threw _ e => some (.threw e)
    | .failed _ | .charged _ _ => none

/-- A process and its store, answering one check at a time; `none` to one that does not return. -/
def limiter (cfg : Config b) (leases : ℕ) : Service (L2 × Process) Ask (Option Said) := fun s a =>
  match a with
  | .check tenant cost weight now =>
    match runAlone cfg leases s tenant cost weight now with
    | some r => (r.1, saidBy r.2)
    | none => (s, none)
  | .expire _ => ((s.1.expire b.l2Key, s.2), some .expired)

/-- The limiter and an empty store, as constructed. -/
def fresh (cfg : Config b) : L2 × Process := (.empty, .new cfg)

/-- A check meets the process in the window that the store finds for it, and has a cost of the
arithmetic. The store's state does not expire before the end of its window. -/
def Undivided (b : Budget) (s : L2 × Process) : Ask → Prop
  | .check tenant cost weight now =>
    (validateInputs tenant cost weight).isOk = true → Cuts b s.2 now ∧ Unrounded cost
  | .expire now => ∀ slot ∈ s.1.slots b.l2Key, fl (slot.state.start + b.windowMs) ≤ now

instance Undivided.decidable (b : Budget) (s : L2 × Process) : ∀ a, Decidable (Undivided b s a)
  | .check _ _ _ _ => inferInstanceAs (Decidable (_ → _ ∧ _))
  | .expire _ => inferInstanceAs (Decidable (∀ _ ∈ _, _))

omit [Rounding] in
instance (b : Budget) (s : L2 × Process) (a : Ask) : Decidable (@Undivided doubles b s a) :=
  @Undivided.decidable doubles b s a

/-- What a tenant has used of the window. -/
def Process.usedBy (s : Process) (tenant : String) : Option ℚ :=
  (s.tenants.lookup tenant).map fun ref => (s.heap ref).used

/-- The limiter that has the whole budget. -/
def withoutL2 (b : Budget) (maxKeys : Option ℚ) : Config b := ⟨maxKeys, none⟩

/-- What leases the whole budget at once. -/
def wholeBudget (hlimit : 0 < b.limit) : Backing b := ⟨b.limit, hlimit, hlimit⟩

/-- The limiter that leases the whole budget at once. -/
def withL2 (b : Budget) (maxKeys : Option ℚ) (hlimit : 0 < b.limit) : Config b :=
  ⟨maxKeys, some (wholeBudget hlimit)⟩

/-! ### The relation -/

namespace Process

/-- The process with another effective limit. -/
def withLimit (s : Process) (limit : ℚ) : Process := { s with lEffective := limit }

omit [Rounding] in
@[simp] theorem withLimit_tenants (s : Process) (limit : ℚ) :
    (s.withLimit limit).tenants = s.tenants := rfl

omit [Rounding] in
theorem withLimit_of_eq {s : Process} {limit : ℚ} (h : s.lEffective = limit) :
    s.withLimit limit = s := by
  subst h
  rfl

/-- An eviction leaves the window, its limit and the suspended checks alone. -/
theorem evict_frame (cfg : Config b) (s : Process) :
    (s.evict cfg).windowStart = s.windowStart ∧ (s.evict cfg).lEffective = s.lEffective ∧
      (s.evict cfg).calls = s.calls := by
  rw [evict]
  split
  · split
    · rw [deleteTenant]
      split <;> exact ⟨rfl, rfl, rfl⟩
    · exact ⟨rfl, rfl, rfl⟩
  · exact ⟨rfl, rfl, rfl⟩

/-- No active tenant has used anything. -/
structure Unused (s : Process) : Prop where
  agg : s.aggUsed = 0
  each : ∀ tenant ref, s.tenants.lookup tenant = some ref → (s.heap ref).used = 0

theorem Unused.totalUsed {s : Process} (h : s.Unused) : s.aggregate.totalUsed = 0 := by
  rw [aggregate]
  split
  · have hzero : ∀ u ∈ s.useds, u = 0 := by
      intro u hu
      obtain ⟨e, he, rfl⟩ := List.mem_map.mp hu
      exact h.each e.1 e.2 (OrderedMap.lookup_of_mem_entries he)
    have hsum : ∀ us ∈ s.useds.inits, us.sum = 0 := fun us hus =>
      List.sum_eq_zero fun u hu => hzero u (((List.mem_inits _ _).mp hus).subset hu)
    show sumOf s.useds = 0
    rw [sumOf_eq_sum fun us hus => by rw [hsum us hus]; exact fl_zero]
    exact hsum _ ((List.mem_inits _ _).mpr (List.prefix_refl _))
  · exact h.agg

omit [Rounding] in
theorem Unused.opened (cfg : Config b) (s : Process) (windowStart : WithBot ℚ) :
    (s.opened cfg windowStart).Unused where
  agg := rfl
  each := by rintro tenant ref ⟨⟩

theorem Unused.setWeight {s : Process} (h : s.Unused) (ref : ℕ) (w : ℚ) :
    (s.setWeight ref w).Unused where
  agg := h.agg
  each tenant ref' hlookup := by
    have hused := h.each tenant ref' hlookup
    by_cases href : ref' = ref
    · subst href
      simpa [Process.setWeight] using hused
    · simpa [Process.setWeight, href] using hused

theorem Unused.deleteTenant {s : Process} (h : s.Unused) (tenant : String) :
    (s.deleteTenant tenant).Unused := by
  cases hlookup : s.tenants.lookup tenant with
  | none =>
    rw [Process.deleteTenant, hlookup]
    exact h
  | some ref =>
    rw [deleteTenant_of_lookup hlookup]
    refine ⟨?_, fun tenant' ref' hlookup' => ?_⟩
    · show fl (s.aggUsed - (s.heap ref).used) = 0
      rw [h.agg, h.each tenant ref hlookup, sub_zero, fl_zero]
    · by_cases hkey : tenant = tenant'
      · subst hkey
        rw [OrderedMap.lookup_erase_self] at hlookup'
        cases hlookup'
      · rw [OrderedMap.lookup_erase_of_ne _ hkey] at hlookup'
        exact h.each tenant' ref' hlookup'

theorem Unused.addTenant {s : Process} (h : s.Unused) (tenant : String) (w : ℚ) :
    (s.addTenant tenant w).Unused where
  agg := h.agg
  each tenant' ref hlookup := by
    show (Function.update s.heap s.allocated ⟨w, 0⟩ ref).used = 0
    by_cases href : ref = s.allocated
    · rw [href, Function.update_self]
    · rw [Function.update_of_ne href]
      by_cases hkey : tenant = tenant'
      · subst hkey
        rw [addTenant_tenants, OrderedMap.lookup_set_self] at hlookup
        exact absurd (Option.some.inj hlookup).symm href
      · rw [addTenant_tenants, OrderedMap.lookup_set_of_ne _ _ hkey] at hlookup
        exact h.each tenant' ref hlookup

theorem Unused.evict {s : Process} (h : s.Unused) (cfg : Config b) : (s.evict cfg).Unused := by
  rw [Process.evict]
  split
  · split
    · exact h.deleteTenant _
    · exact h
  · exact h

end Process

variable (maxKeys : Option ℚ) (hlimit : 0 < b.limit) {store : L2} {s : Process} {now : ℚ}

omit [Rounding] in
theorem withL2_l2 : (withL2 b maxKeys hlimit).l2 = some (wholeBudget hlimit) := rfl

/-- The whole budget of the window at `w` was leased, or nothing of it. -/
def Leased (b : Budget) (store : L2) (s : Process) (w : ℚ) : Prop :=
  (s.lEffective = b.limit ∧ FixedWindow.countIn (store.read b.l2Key) w = b.limit) ∨
    (s.lEffective = 0 ∧ s.Unused ∧ FixedWindow.countIn (store.read b.l2Key) w = 0)

/-- The two limiters up to `now`, and when the window of the one with `l2` was opened. -/
structure InStep (b : Budget) (now : ℚ) (s t : L2 × Process) : Prop where
  same : t.2 = s.2.withLimit b.limit
  idle : s.2.calls = .empty
  window : (s.2.windowStart = ⊥ ∧ s.1.read b.l2Key = none) ∨
    ∃ start : ℚ, s.2.windowStart = start ∧
      (∀ w, start < w → FixedWindow.countIn (s.1.read b.l2Key) w = 0) ∧
      (now < fl (start + b.windowMs) → Leased b s.1 s.2 start)

theorem InStep.start (now : ℚ) :
    InStep b now (fresh (withL2 b maxKeys hlimit)) (fresh (withoutL2 b maxKeys)) where
  same := rfl
  idle := rfl
  window := .inl ⟨rfl, rfl⟩

theorem InStep.mono {now' : ℚ} {s t : L2 × Process} (hle : now ≤ now') (h : InStep b now s t) :
    InStep b now' s t where
  same := h.same
  idle := h.idle
  window := by
    refine h.window.imp_right ?_
    rintro ⟨start, hstart, hlater, hleased⟩
    exact ⟨start, hstart, hlater, fun hlt => hleased (hle.trans_lt hlt)⟩

/-! ### The prelude of a check -/

theorem rollWindow_withLimit (s : Process) (now : ℚ) :
    (s.withLimit b.limit).rollWindow (withoutL2 b maxKeys) now
      = (s.rollWindow (withL2 b maxKeys hlimit) now).withLimit b.limit := by
  have hrolls : (s.withLimit b.limit).rolls b now = s.rolls b now := rfl
  rw [Process.rollWindow, Process.rollWindow, hrolls]
  split <;> rfl

theorem bootstrapTenant_withLimit (s : Process) (tenant : String) (w : ℚ) :
    (s.withLimit b.limit).bootstrapTenant (withoutL2 b maxKeys) tenant w
      = (((s.bootstrapTenant (withL2 b maxKeys hlimit) tenant w).1).withLimit b.limit,
        (s.bootstrapTenant (withL2 b maxKeys hlimit) tenant w).2) := by
  have hevict : (s.withLimit b.limit).evict (withoutL2 b maxKeys)
      = (s.evict (withL2 b maxKeys hlimit)).withLimit b.limit := by
    have hfull : (withoutL2 b maxKeys).full = (withL2 b maxKeys hlimit).full := rfl
    rw [Process.evict, Process.evict, hfull, Process.withLimit_tenants]
    split
    · split
      · rw [Process.deleteTenant, Process.deleteTenant, Process.withLimit_tenants]
        split <;> rfl
      · rfl
    · rfl
  rw [Process.bootstrapTenant, Process.bootstrapTenant, hevict]
  rfl

/-- The prelude does not depend on the effective limit. -/
theorem arrive_withLimit (s : Process) (r : Request) (now : ℚ) :
    arrive (withoutL2 b maxKeys) (s.withLimit b.limit) r now
      = ((arrive (withL2 b maxKeys hlimit) s r now).1.withLimit b.limit,
        (arrive (withL2 b maxKeys hlimit) s r now).2) := by
  rw [arrive, arrive, rollWindow_withLimit maxKeys hlimit]
  dsimp only
  generalize s.rollWindow (withL2 b maxKeys hlimit) now = rolled
  have htick : (rolled.withLimit b.limit).tick now = (rolled.tick now).withLimit b.limit := rfl
  rw [htick, Process.withLimit_tenants]
  split
  · rfl
  · rw [bootstrapTenant_withLimit maxKeys hlimit]

/-- What the prelude does to the window: it opens a new one or keeps it, and uses nothing. -/
theorem arrive_frame (cfg : Config b) (s : Process) (r : Request) (now : ℚ) :
    (arrive cfg s r now).1.windowStart = (s.rollWindow cfg now).windowStart ∧
      (arrive cfg s r now).1.lEffective = (s.rollWindow cfg now).lEffective ∧
      (arrive cfg s r now).1.calls = s.calls ∧
      ((s.rollWindow cfg now).Unused → (arrive cfg s r now).1.Unused) := by
  have hcalls : (s.rollWindow cfg now).calls = s.calls := by
    rw [Process.rollWindow]
    split <;> rfl
  rw [arrive]
  dsimp only
  generalize s.rollWindow cfg now = rolled at hcalls ⊢
  have htick : rolled.Unused → (rolled.tick now).Unused := fun h => ⟨h.agg, h.each⟩
  split
  · exact ⟨rfl, rfl, hcalls, fun h => (htick h).setWeight _ _⟩
  · obtain ⟨hstart, hlimit, hsuspended⟩ := Process.evict_frame cfg (rolled.tick now)
    exact ⟨hstart, hlimit, hsuspended.trans hcalls,
      fun h => ((htick h).evict cfg).addTenant _ _⟩

/-- After the prelude the window is that of the check, and the whole budget of it was leased or
nothing. -/
theorem InStep.arrive {s t : L2 × Process} (h : InStep b now s t) (hcuts : Cuts b s.2 now)
    (r : Request) :
    (arrive (withL2 b maxKeys hlimit) s.2 r now).1.windowStart = (startOf b.windowMs now : ℚ) ∧
      Leased b s.1 (arrive (withL2 b maxKeys hlimit) s.2 r now).1 (startOf b.windowMs now) ∧
      ∀ w, startOf b.windowMs now < w →
        FixedWindow.countIn (s.1.read b.l2Key) w = 0 := by
  obtain ⟨hstart, hlim, -, hunused⟩ := arrive_frame (withL2 b maxKeys hlimit) s.2 r now
  have hrolled : s.2.rolls b now = true →
      (∀ w, startOf b.windowMs now ≤ w → FixedWindow.countIn (s.1.read b.l2Key) w = 0) →
      (FairEscrow.arrive (withL2 b maxKeys hlimit) s.2 r now).1.windowStart
          = (startOf b.windowMs now : ℚ) ∧
        Leased b s.1 (FairEscrow.arrive (withL2 b maxKeys hlimit) s.2 r now).1
          (startOf b.windowMs now) ∧
        ∀ w, startOf b.windowMs now < w →
          FixedWindow.countIn (s.1.read b.l2Key) w = 0 := by
    intro hrolls hzero
    rw [Process.rollWindow, if_pos hrolls] at hstart hlim hunused
    refine ⟨hstart, .inr ⟨hlim, hunused (.opened _ _ _), hzero _ le_rfl⟩, fun w hw => ?_⟩
    exact hzero w hw.le
  rcases h.window with ⟨hbot, hnone⟩ | ⟨start, hopen, hlater, hleased⟩
  · refine hrolled ?_ fun w _ => ?_
    · rw [Process.rolls, hbot]
      simp
    · rw [hnone]
      rfl
  · by_cases hrolls : s.2.rolls b now = true
    · refine hrolled hrolls fun w hw => hlater w ?_
      rw [Cuts, if_pos hrolls, hopen, WithBot.coe_lt_coe] at hcuts
      exact hcuts.trans_le hw
    · rw [Cuts, if_neg hrolls, hopen, WithBot.coe_inj] at hcuts
      subst hcuts
      have hlt : now < fl (startOf b.windowMs now + b.windowMs) := by
        by_contra hover
        refine hrolls (decide_eq_true ?_)
        rw [hopen]
        exact WithBot.coe_le_coe.mpr (not_lt.mp hover)
      have hkeep : s.2.rollWindow (withL2 b maxKeys hlimit) now = s.2 := by
        rw [Process.rollWindow, if_neg hrolls]
      rw [hkeep] at hstart hlim hunused
      refine ⟨hstart.trans hopen, ?_, hlater⟩
      rcases hleased hlt with ⟨hfull, hcount⟩ | ⟨hzero, hnone, hcount⟩
      · exact .inl ⟨hlim.trans hfull, hcount⟩
      · exact .inr ⟨hlim.trans hzero, hunused hnone, hcount⟩

/-! ### One check -/

theorem alone_check {cfg : Config b} {s : L2 × Process} {tenant : String} {cost weight : ℚ}
    (hidle : s.2.calls = .empty) :
    alone cfg s (.check 0 tenant cost weight now)
      = some ((s.1, (check cfg s.2 0 tenant cost weight now).1),
        (check cfg s.2 0 tenant cost weight now).2) := by
  rw [alone, step, hidle, OrderedMap.lookup_empty]
  rfl

theorem untilReturn_idle (cfg : Config b) (leases : ℕ) {s : L2 × Process}
    (hidle : s.2.calls = .empty) : untilReturn cfg leases s = some (s, []) := by
  cases leases with
  | zero => rw [untilReturn, hidle]; rfl
  | succ leases => rw [untilReturn, hidle]; rfl

/-- A check that does not wait. -/
theorem runAlone_of_idle {cfg : Config b} {s : L2 × Process} {tenant : String} {cost weight : ℚ}
    (leases : ℕ) (hidle : s.2.calls = .empty)
    (hdone : (check cfg s.2 0 tenant cost weight now).1.calls = .empty) :
    runAlone cfg leases s tenant cost weight now
      = some ((s.1, (check cfg s.2 0 tenant cost weight now).1),
        (check cfg s.2 0 tenant cost weight now).2) := by
  rw [runAlone, alone_check hidle, Option.bind_some, untilReturn_idle cfg leases hdone]
  simp

omit [Rounding] in
/-- What a lease moved on and answered leaves of the suspended check. -/
theorem setCall_setCall_finish {s : Process} (hidle : s.calls = .empty) (c c' : Call) :
    ((s.setCall 0 c).setCall 0 c').finish 0 = s := by
  obtain ⟨windowStart, lEffective, tenants, aggWeight, aggUsed, fractionalSeen, heap, allocated,
    calls, clock⟩ := s
  obtain rfl : calls = .empty := hidle
  rfl

theorem grow_setCall_finish {s : Process} (hidle : s.calls = .empty) (c c' : Call) (amount : ℚ) :
    (((s.setCall 0 c).setCall 0 c').grow amount).finish 0 = s.grow amount := by
  have hcalls := setCall_setCall_finish hidle c c'
  calc (((s.setCall 0 c).setCall 0 c').grow amount).finish 0
      = (((s.setCall 0 c).setCall 0 c').finish 0).grow amount := rfl
    _ = s.grow amount := by rw [hcalls]

section Lease

variable {cfg : Config b} {l2 : Backing b} {c : Call} {r : L2 × Decision}

theorem alone_serve (hl2 : cfg.l2 = some l2) (hstage : c.stage = .requested)
    (hr : FixedWindow.applyCheck l2.sharedStrategy store b.l2Key c.check.now c.leaseAmount = r) :
    alone cfg (store, s.setCall 0 c) (.serve 0)
      = some ((r.1, (s.setCall 0 c).setCall 0 { c with stage := .replied r.2 }),
        if r.2.allowed then [.charged c.check.now c.leaseAmount] else []) := by
  have hlookup : (s.setCall 0 c).calls.lookup 0 = some c := OrderedMap.lookup_set_self ..
  simp only [alone, step, hl2, Option.bind_some, serve, hlookup, hstage, hr, Option.map_some]

/-- The lease of a suspended check is refused. -/
theorem exec_lease_of_denied (hl2 : cfg.l2 = some l2) (hstage : c.stage = .requested)
    (hidle : s.calls = .empty)
    (hr : FixedWindow.applyCheck l2.sharedStrategy store b.l2Key c.check.now c.leaseAmount = r)
    (hdenied : r.2.allowed = false) :
    (alone cfg).exec (store, s.setCall 0 c) [.serve 0, .resume 0]
      = some ((r.1, s), [.refused 0 c.check (leaseDenied b s c.check r.2)]) := by
  have hlookup : ((s.setCall 0 c).setCall 0 { c with stage := .replied r.2 }).calls.lookup 0
      = some { c with stage := .replied r.2 } := OrderedMap.lookup_set_self ..
  have hresume : alone cfg
      (r.1, (s.setCall 0 c).setCall 0 { c with stage := .replied r.2 }) (.resume 0)
      = some ((r.1, s), [.refused 0 c.check (leaseDenied b s c.check r.2)]) := by
    simp only [alone, step, hl2, Option.bind_some, resume, hlookup, hdenied, Bool.false_eq_true,
      if_false, Option.map_some, setCall_setCall_finish hidle]
    rfl
  rw [Machine.exec, alone_serve hl2 hstage hr, Option.bind_some, Machine.exec, hresume,
    if_neg (by simp [hdenied])]
  rfl

/-- The lease of a suspended check is granted, and the budget is then all leased. -/
theorem exec_lease_of_allowed (hl2 : cfg.l2 = some l2) (hstage : c.stage = .requested)
    (hidle : s.calls = .empty)
    (hr : FixedWindow.applyCheck l2.sharedStrategy store b.l2Key c.check.now c.leaseAmount = r)
    (hallowed : r.2.allowed = true) (hfull : b.limit ≤ fl (s.lEffective + c.leaseAmount)) :
    (alone cfg).exec (store, s.setCall 0 c) [.serve 0, .resume 0]
      = some ((r.1, (conclude b (s.grow c.leaseAmount) 0 c.check).1),
        .charged c.check.now c.leaseAmount ::
          (conclude b (s.grow c.leaseAmount) 0 c.check).2) := by
  have hlookup : ((s.setCall 0 c).setCall 0 { c with stage := .replied r.2 }).calls.lookup 0
      = some { c with stage := .replied r.2 } := OrderedMap.lookup_set_self ..
  have hresume : alone cfg
      (r.1, (s.setCall 0 c).setCall 0 { c with stage := .replied r.2 }) (.resume 0)
      = some ((r.1, (conclude b (s.grow c.leaseAmount) 0 c.check).1),
        (conclude b (s.grow c.leaseAmount) 0 c.check).2) := by
    have hfull' : b.limit ≤ (s.grow c.leaseAmount).lEffective := hfull
    simp only [alone, step, hl2, Option.bind_some, resume, hlookup, hallowed, if_true,
      grow_setCall_finish hidle, if_pos hfull', Option.map_some]
  rw [Machine.exec, alone_serve hl2 hstage hr, Option.bind_some, Machine.exec, hresume,
    if_pos hallowed]
  simp [Machine.exec]

end Lease

/-- The cap denies what does not fit in the effective limit. -/
theorem verdict_of_lt {k : Check} (h : fl (s.lEffective - s.aggregate.totalUsed) < k.cost) :
    (s.verdict b k).allowed = false := by
  rw [Process.verdict]
  dsimp only
  split
  · rw [if_pos h]
  · rw [if_pos h]

/-- What a check that waits for nothing said, and what it leaves. -/
theorem conclude_frame (hidle : s.calls = .empty) (k : Check) :
    saidBy (conclude b s 0 k).2 = some (.decided (s.verdict b k).allowed) ∧
      (conclude b s 0 k).1.windowStart = s.windowStart ∧
      (conclude b s 0 k).1.lEffective = s.lEffective ∧ (conclude b s 0 k).1.calls = .empty := by
  have happly : ∀ {q : Process}, q.calls = .empty → (q.finish 0).calls = .empty := by
    intro q hq
    show q.calls.erase 0 = .empty
    rw [hq]
    rfl
  rw [conclude, Process.decide]
  dsimp only
  refine ⟨rfl, ?_, ?_, happly ?_⟩ <;> split
  · rfl
  · rfl
  · rfl
  · rfl
  · exact hidle
  · exact hidle

/-- A denial leaves the process as it is. -/
theorem conclude_of_denied (hidle : s.calls = .empty) {k : Check}
    (h : (s.verdict b k).allowed = false) : (conclude b s 0 k).1 = s := by
  rw [conclude, Process.decide, h]
  obtain ⟨windowStart, lEffective, tenants, aggWeight, aggUsed, fractionalSeen, heap, allocated,
    calls, clock⟩ := s
  obtain rfl : calls = .empty := hidle
  rfl

theorem InStep.intro {t : L2 × Process} (hsame : t.2 = s.withLimit b.limit)
    (hidle : s.calls = .empty) (hstart : s.windowStart = (startOf b.windowMs now : ℚ))
    (hlater : ∀ w, startOf b.windowMs now < w →
      FixedWindow.countIn (store.read b.l2Key) w = 0)
    (hleased : Leased b store s (startOf b.windowMs now)) : InStep b now (store, s) t where
  same := hsame
  idle := hidle
  window := .inr ⟨_, hstart, hlater, fun _ => hleased⟩

/-- A lease that the window has no room for. -/
theorem applyCheck_of_full (l2 : Backing b) {amount : ℚ}
    (hfull : b.limit < fl (FixedWindow.countIn (store.read b.l2Key) (startOf b.windowMs now) +
      amount)) :
    ∃ d, FixedWindow.applyCheck l2.sharedStrategy store b.l2Key now amount = (store, d) ∧
      d.allowed = false := by
  generalize hr : FixedWindow.applyCheck l2.sharedStrategy store b.l2Key now amount = r
  obtain ⟨store', d⟩ := r
  rcases FixedWindow.applyCheck_cases hr with ⟨-, hfits, -⟩ | ⟨hd, rfl⟩
  · exact absurd hfits (not_le.mpr hfull)
  · exact ⟨d, rfl, hd⟩

/-- The lease of the whole budget of a window that nothing was leased of. -/
theorem applyCheck_of_unleased (l2 : Backing b) (hdouble : Unrounded (b.limit : ℚ))
    (hcount : FixedWindow.countIn (store.read b.l2Key) (startOf b.windowMs now) = 0) :
    ∃ store' d, FixedWindow.applyCheck l2.sharedStrategy store b.l2Key now b.limit = (store', d) ∧
      d.allowed = true ∧
      store'.read b.l2Key = some ⟨startOf b.windowMs now, b.limit⟩ := by
  have hcount' : FixedWindow.countIn (store.read b.l2Key)
      (startOf l2.sharedStrategy.windowMs now) = 0 := hcount
  generalize hr : FixedWindow.applyCheck l2.sharedStrategy store b.l2Key now b.limit = r
  obtain ⟨store', d⟩ := r
  rcases FixedWindow.applyCheck_cases hr with ⟨hd, -, hslots⟩ | ⟨hd, -⟩
  · refine ⟨store', d, rfl, hd, ?_⟩
    rw [Store.read, hslots, Function.update_self, hcount', zero_add, (hdouble : fl _ = _)]
    rfl
  · have hsnd := FixedWindow.applyCheck_snd l2.sharedStrategy store b.l2Key now b.limit
    rw [hr] at hsnd
    obtain rfl : d = _ := hsnd
    rw [FixedWindow.denied_iff, hcount', zero_add, (hdouble : fl _ = _)] at hd
    exact absurd hd (lt_irrefl _)

/-- A check that the leased budget does not cover waits for a lease. -/
theorem checkL2_of_lt {l2 : Backing b} {k : Check} {amount : ℚ} (hpos : 0 < amount)
    (hlt : fl (s.lEffective - s.aggregate.totalUsed) < k.cost)
    (hamount : max (fl (k.cost - fl (s.lEffective - s.aggregate.totalUsed))) (l2.quantum : ℚ)
      = amount) :
    checkL2 l2 s 0 k = (s.setCall 0 ⟨k, amount, .requested, hpos⟩, []) := by
  subst hamount
  rw [checkL2, if_neg (not_le.mpr hlt)]

/-- The two limiters answer a check alike, and are in step again. -/
structure Agree (b : Budget) (now : ℚ) (r r' : Option ((L2 × Process) × List Event)) : Prop where
  returned : ∃ q ∈ r, ∃ q' ∈ r', (∃ said, saidBy q.2 = some said ∧ saidBy q'.2 = some said) ∧
    InStep b now q.1 q'.1

/-- A check of the two limiters after its prelude. -/
theorem agree_turn (hdouble : Unrounded (b.limit : ℚ)) {t : L2} {k : Check} (hk : k.now = now)
    (hcost : Unrounded k.cost) (leases : ℕ) (hidle : s.calls = .empty)
    (hstart : s.windowStart = (startOf b.windowMs now : ℚ))
    (hleased : Leased b store s (startOf b.windowMs now))
    (hlater : ∀ w, startOf b.windowMs now < w →
      FixedWindow.countIn (store.read b.l2Key) w = 0) :
    Agree b now
      ((untilReturn (withL2 b maxKeys hlimit) (leases + 1)
          (store, (checkL2 (wholeBudget hlimit) s 0 k).1)).map fun q =>
        (q.1, (checkL2 (wholeBudget hlimit) s 0 k).2 ++ q.2))
      (some ((t, (conclude b (s.withLimit b.limit) 0 k).1),
        (conclude b (s.withLimit b.limit) 0 k).2)) := by
  have hlimit' : (0 : ℚ) < b.limit := by exact_mod_cast hlimit
  have hidle' : (s.withLimit b.limit).calls = .empty := hidle
  obtain ⟨hsaid, hwindow, hlim, hcalls⟩ := conclude_frame (b := b) hidle' k
  -- the lease is refused, and the cap denies
  have hrefused : ∀ amount, (hpos : 0 < amount) →
      b.limit < fl (FixedWindow.countIn (store.read b.l2Key) (startOf b.windowMs now) + amount) →
      fl (b.limit - s.aggregate.totalUsed) < k.cost →
      (checkL2 (wholeBudget hlimit) s 0 k) = (s.setCall 0 ⟨k, amount, .requested, hpos⟩, []) →
      Agree b now
        ((untilReturn (withL2 b maxKeys hlimit) (leases + 1)
            (store, (checkL2 (wholeBudget hlimit) s 0 k).1)).map fun q =>
          (q.1, (checkL2 (wholeBudget hlimit) s 0 k).2 ++ q.2))
        (some ((t, (conclude b (s.withLimit b.limit) 0 k).1),
          (conclude b (s.withLimit b.limit) 0 k).2)) := by
    intro amount hpos hfull hcap hwaits
    have hdenied : ((s.withLimit b.limit).verdict b k).allowed = false := verdict_of_lt hcap
    obtain ⟨d, happly, hd⟩ := applyCheck_of_full (wholeBudget hlimit) hfull
    subst hk
    have hexec := exec_lease_of_denied (withL2_l2 maxKeys hlimit)
      (c := ⟨k, amount, .requested, hpos⟩) rfl hidle happly hd
    have hlookup : ((s.setCall 0 ⟨k, amount, .requested, hpos⟩).calls.lookup 0).isSome := by
      simp [Process.setCall]
    rw [hwaits, untilReturn, if_pos hlookup, hexec, Option.bind_some,
      untilReturn_idle _ _ hidle]
    refine ⟨_, rfl, _, rfl, ⟨.decided false, rfl, hsaid.trans (by rw [hdenied])⟩, ?_⟩
    exact .intro (conclude_of_denied hidle' hdenied) hidle hstart hlater hleased
  rcases hleased with ⟨hfull, hcount⟩ | ⟨hzero, hunused, hcount⟩
  · rcases le_or_gt k.cost (fl (s.lEffective - s.aggregate.totalUsed)) with hfits | hcap
    · -- the leased budget covers the check
      have hsame : s.withLimit b.limit = s := Process.withLimit_of_eq hfull
      rw [checkL2, if_pos hfits]
      rw [hsame] at hsaid hwindow hlim hcalls ⊢
      rw [untilReturn_idle _ _ hcalls, Option.map_some, List.append_nil]
      refine ⟨_, rfl, _, rfl, ⟨_, hsaid, hsaid⟩, ?_⟩
      exact .intro (Process.withLimit_of_eq (hlim.trans hfull)).symm hcalls (hwindow.trans hstart)
        hlater (.inl ⟨hlim.trans hfull, hcount⟩)
    · refine hrefused (max (fl (k.cost - fl (s.lEffective - s.aggregate.totalUsed))) b.limit)
        (lt_max_of_lt_right hlimit') ?_ ?_ ?_
      · -- a second lease of the budget is past it, even rounded
        rw [hcount]
        calc (b.limit : ℚ) < b.limit + b.limit := lt_add_of_pos_left _ hlimit'
          _ = fl (b.limit + b.limit) := (fl_add_self _ hdouble).symm
          _ ≤ _ := mono (add_le_add le_rfl (le_max_right _ _))
      · rwa [← hfull]
      · exact checkL2_of_lt _ hcap rfl
  · have hused := hunused.totalUsed
    have hroom : fl (s.lEffective - s.aggregate.totalUsed) = 0 := by
      rw [hzero, hused, sub_zero, fl_zero]
    have hwaits : fl (s.lEffective - s.aggregate.totalUsed) < k.cost := hroom.trans_lt k.cost_pos
    have hneeded : fl (k.cost - fl (s.lEffective - s.aggregate.totalUsed)) = k.cost := by
      rw [hroom, sub_zero, (hcost : fl _ = _)]
    rcases le_or_gt k.cost b.limit with hfits | hlarge
    · -- nothing was leased yet: the whole budget is, and the check is decided within it
      obtain ⟨store', d, happly, hd, hread⟩ := applyCheck_of_unleased (wholeBudget hlimit) hdouble
        hcount
      have hgrow : s.grow b.limit = s.withLimit b.limit := by
        rw [Process.grow, hzero, zero_add, (hdouble : fl _ = _)]
        rfl
      subst hk
      have hexec := exec_lease_of_allowed (withL2_l2 maxKeys hlimit)
        (c := ⟨k, b.limit, .requested, hlimit'⟩) rfl hidle happly hd
        (by rw [hzero, zero_add, (hdouble : fl _ = _)])
      have hlookup : ((s.setCall 0 ⟨k, b.limit, .requested, hlimit'⟩).calls.lookup 0).isSome := by
        simp [Process.setCall]
      rw [checkL2_of_lt hlimit' hwaits (by rw [hneeded]; exact max_eq_right hfits),
        untilReturn, if_pos hlookup, hexec, Option.bind_some, hgrow, untilReturn_idle _ _ hcalls]
      refine ⟨_, rfl, _, rfl, ⟨_, ?_, hsaid⟩, ?_⟩
      · simp only [List.nil_append, List.append_nil]
        exact hsaid
      · refine .intro ?_ hcalls (hwindow.trans hstart) ?_ (.inl ⟨hlim, ?_⟩)
        · exact (Process.withLimit_of_eq hlim).symm
        · intro w hw
          rw [hread, FixedWindow.countIn, if_neg hw.ne]
        · rw [hread, FixedWindow.countIn, if_pos rfl]
    · refine hrefused k.cost k.cost_pos ?_ ?_ ?_
      · rwa [hcount, zero_add, (hcost : fl _ = _)]
      · rwa [hused, sub_zero, (hdouble : fl _ = _)]
      · exact checkL2_of_lt _ hwaits (by rw [hneeded]; exact max_eq_left hlarge.le)

/-- A check keeps the two limiters in step. -/
theorem InStep.check (hdouble : Unrounded (b.limit : ℚ)) {s t : L2 × Process}
    (h : InStep b now s t) (tenant : String) (cost weight : ℚ) (leases leases' : ℕ)
    (hsame : (validateInputs tenant cost weight).isOk = true → Cuts b s.2 now ∧ Unrounded cost) :
    Agree b now (runAlone (withL2 b maxKeys hlimit) (leases + 1) s tenant cost weight now)
      (runAlone (withoutL2 b maxKeys) leases' t tenant cost weight now) := by
  have hidle' : t.2.calls = .empty := by rw [h.same]; exact h.idle
  cases hvalid : validateInputs tenant cost weight with
  | error e =>
    have hs : FairEscrow.check (withL2 b maxKeys hlimit) s.2 0 tenant cost weight now
        = (s.2, [.threw 0 e]) := by rw [FairEscrow.check, hvalid]
    have ht : FairEscrow.check (withoutL2 b maxKeys) t.2 0 tenant cost weight now
        = (t.2, [.threw 0 e]) := by rw [FairEscrow.check, hvalid]
    rw [runAlone_of_idle _ h.idle (by rw [hs]; exact h.idle), hs,
      runAlone_of_idle _ hidle' (by rw [ht]; exact hidle'), ht]
    exact ⟨_, rfl, _, rfl, ⟨_, rfl, rfl⟩, h⟩
  | ok r =>
    obtain ⟨hcuts, hcost⟩ := hsame (by rw [hvalid]; rfl)
    obtain ⟨hstart, hleased, hlater⟩ := h.arrive maxKeys hlimit hcuts r
    obtain ⟨-, -, hcalls, -⟩ := arrive_frame (withL2 b maxKeys hlimit) s.2 r now
    have harrive := arrive_withLimit maxKeys hlimit s.2 r now
    have hk : (FairEscrow.arrive (withL2 b maxKeys hlimit) s.2 r now).2.now = now := by
      rw [FairEscrow.arrive]
      dsimp only
      split <;> rfl
    have hk' : (FairEscrow.arrive (withL2 b maxKeys hlimit) s.2 r now).2.cost = cost := by
      rw [← (request_of_validateInputs hvalid).2, FairEscrow.arrive]
      dsimp only
      split <;> rfl
    have hs : FairEscrow.check (withL2 b maxKeys hlimit) s.2 0 tenant cost weight now
        = checkL2 (wholeBudget hlimit) (FairEscrow.arrive (withL2 b maxKeys hlimit) s.2 r now).1 0
          (FairEscrow.arrive (withL2 b maxKeys hlimit) s.2 r now).2 := by
      rw [FairEscrow.check, hvalid]
      rfl
    have ht : FairEscrow.check (withoutL2 b maxKeys) t.2 0 tenant cost weight now
        = conclude b
          ((FairEscrow.arrive (withL2 b maxKeys hlimit) s.2 r now).1.withLimit b.limit) 0
          (FairEscrow.arrive (withL2 b maxKeys hlimit) s.2 r now).2 := by
      rw [FairEscrow.check, hvalid, h.same]
      dsimp only [withoutL2]
      rw [← withoutL2, harrive]
    generalize FairEscrow.arrive (withL2 b maxKeys hlimit) s.2 r now = p at *
    have hturn := agree_turn maxKeys hlimit hdouble (t := t.1) hk (by rwa [hk']) leases
      (hcalls.trans h.idle) hstart
      hleased hlater
    have hdone : (FairEscrow.check (withoutL2 b maxKeys) t.2 0 tenant cost weight now).1.calls
        = .empty := by
      rw [ht]
      exact (conclude_frame (s := p.1.withLimit b.limit) (hcalls.trans h.idle) p.2).2.2.2
    rw [runAlone_of_idle leases' hidle' hdone, ht, runAlone, alone_check h.idle, hs,
      Option.bind_some]
    exact hturn

omit [Rounding] in
theorem read_expire (store : L2) (key : String) : (store.expire key).read key = none := by
  have hslot : (store.expire key).slots key
      = (store.slots key).map fun slot => { slot with live := false } := by
    simp [Store.expire]
  rw [Store.read, hslot]
  cases store.slots key with
  | none => rfl
  | some slot => rfl

/-- So does the TTL of a window that is over. -/
theorem InStep.expire {s t : L2 × Process} (hlimit : 0 < b.limit) (h : InStep b now s t)
    (hover : Undivided b s (.expire now)) :
    InStep b now (s.1.expire b.l2Key, s.2) (t.1.expire b.l2Key, t.2) where
  same := h.same
  idle := h.idle
  window := by
    have hread := read_expire s.1 b.l2Key
    have hcount : ∀ w, FixedWindow.countIn ((s.1.expire b.l2Key).read b.l2Key) w = 0 := by
      intro w
      rw [hread]
      rfl
    refine h.window.imp (fun hw => ⟨hw.1, hread⟩) ?_
    rintro ⟨start, hstart, hlater, hleased⟩
    refine ⟨start, hstart, fun w _ => hcount w, fun hlt => ?_⟩
    rcases hleased hlt with ⟨hfull, hleft⟩ | ⟨hzero, hunused, -⟩
    · -- a budget that is leased is counted by the state in the store, which is not over
      have hpos : (0 : ℚ) < b.limit := by exact_mod_cast hlimit
      exfalso
      cases hslot : s.1.slots b.l2Key with
      | none =>
        rw [Store.read, hslot] at hleft
        exact hpos.ne hleft
      | some slot =>
        have hend := hover slot hslot
        rw [Store.read, hslot, Option.bind_some] at hleft
        split at hleft
        · rw [FixedWindow.countIn] at hleft
          split at hleft
          · rename_i hsame
            rw [hsame] at hend
            exact absurd hend (not_le.mpr hlt)
          · exact hpos.ne hleft
        · exact hpos.ne hleft
    · exact .inr ⟨hzero, hunused, hcount _⟩

/-- The two limiters answer a request alike, and are in step again. -/
theorem InStep.ask (hdouble : Unrounded (b.limit : ℚ)) {s t : L2 × Process} {a : Ask}
    (h : InStep b a.time s t) (hover : Undivided b s a) (leases leases' : ℕ) :
    (∃ said, (limiter (withL2 b maxKeys hlimit) (leases + 1) s a).2 = some said ∧
        (limiter (withoutL2 b maxKeys) leases' t a).2 = some said) ∧
      InStep b a.time (limiter (withL2 b maxKeys hlimit) (leases + 1) s a).1
        (limiter (withoutL2 b maxKeys) leases' t a).1 := by
  cases a with
  | check tenant cost weight now =>
    have hcheck : InStep b now s t := h
    obtain ⟨q, hq, q', hq', ⟨said, hsaid, hsaid'⟩, hnext⟩ :=
      (hcheck.check maxKeys hlimit hdouble tenant cost weight leases leases' hover).returned
    rw [limiter, limiter, Option.mem_def.mp hq, Option.mem_def.mp hq']
    exact ⟨⟨said, hsaid, hsaid'⟩, hnext⟩
  | expire now => exact ⟨⟨.expired, rfl, rfl⟩, InStep.expire hlimit h hover⟩

/-- **The same limiter with and without a store of its own.** Checks in the order of their times get
the same decisions, none waits for ever, and every tenant has used the same, as long as each check
meets the process in the window that the store finds for it. -/
theorem withL2_eq_withoutL2 (b : Budget) (maxKeys : Option ℚ) (hlimit : 0 < b.limit)
    (hdouble : Unrounded (b.limit : ℚ)) (leases leases' : ℕ) {asks : List Ask}
    (hsorted : asks.Pairwise fun a a' => a.time ≤ a'.time)
    (hexpire : AllMet (limiter (withL2 b maxKeys hlimit) (leases + 1)) (Undivided b)
      (fresh (withL2 b maxKeys hlimit)) asks) :
    answers (limiter (withL2 b maxKeys hlimit) (leases + 1)) (fresh (withL2 b maxKeys hlimit)) asks
        = answers (limiter (withoutL2 b maxKeys) leases') (fresh (withoutL2 b maxKeys)) asks ∧
      none ∉ answers (limiter (withL2 b maxKeys hlimit) (leases + 1))
        (fresh (withL2 b maxKeys hlimit)) asks ∧
      ∀ tenant,
        (after (limiter (withL2 b maxKeys hlimit) (leases + 1))
          (fresh (withL2 b maxKeys hlimit)) asks).2.usedBy tenant =
        (after (limiter (withoutL2 b maxKeys) leases')
          (fresh (withoutL2 b maxKeys)) asks).2.usedBy tenant := by
  have hsaid : List.Forall₂ (fun x y => x ≠ none ∧ x = y)
      (answers (limiter (withL2 b maxKeys hlimit) (leases + 1)) (fresh (withL2 b maxKeys hlimit))
        asks)
      (answers (limiter (withoutL2 b maxKeys) leases') (fresh (withoutL2 b maxKeys)) asks) := by
    refine forall₂_answers_of_start (R := InStep b) (fun hle h => h.mono hle) ?_
      (InStep.start maxKeys hlimit) hsorted hexpire
    intro s t a h hover
    obtain ⟨⟨said, hs, ht⟩, hnext⟩ := h.ask maxKeys hlimit hdouble hover leases leases'
    exact ⟨⟨by simp [hs], hs.trans ht.symm⟩, hnext⟩
  have hend : ∃ now, InStep b now
      (after (limiter (withL2 b maxKeys hlimit) (leases + 1)) (fresh (withL2 b maxKeys hlimit))
        asks)
      (after (limiter (withoutL2 b maxKeys) leases') (fresh (withoutL2 b maxKeys)) asks) := by
    refine related_of_start (R := InStep b) (fun hle h => h.mono hle) ?_
      (InStep.start maxKeys hlimit) hsorted hexpire
    intro s t a h hover
    exact (h.ask maxKeys hlimit hdouble hover leases leases').2
  obtain ⟨now, hend⟩ := hend
  obtain ⟨hreturns, hsame⟩ := (List.forall₂_and_left _ _).mp hsaid
  refine ⟨List.forall₂_eq_eq_eq ▸ hsame, fun hmem => hreturns none hmem rfl, fun tenant => ?_⟩
  rw [hend.same]
  rfl

end Rounded

/-- A check past the budget, three that share it, and one in the next window. -/
def overBudgetThenShared : List Ask :=
  [.check "a" 12 1 0, .check "a" 4 1 0, .check "b" 5 2 10, .check "a" 3 1 20, .expire 1000,
    .check "a" 2 1 1000]

theorem withL2_eq_withoutL2_over_budget :
    answers (@limiter doubles _ (withL2 tenASecond none (by decide)) 1)
        (fresh (withL2 tenASecond none (by decide))) overBudgetThenShared
      = answers (@limiter doubles _ (withoutL2 tenASecond none) 0)
        (fresh (withoutL2 tenASecond none)) overBudgetThenShared :=
  (@withL2_eq_withoutL2 doubles tenASecond none (by decide) (by decide +kernel) 0 0
    overBudgetThenShared (by decide +kernel) (by decide +kernel)).1

/-! ### The condition is needed -/

theorem sixtieth_pos : 0 < Double.roundRat (1000 / 60) := by decide +kernel

/-- One unit in a sixtieth of a second. -/
def oneASixtieth : Budget where
  limit := 1
  windowMs := Double.roundRat (1000 / 60)
  l2Key := "tk:wfe:pool"
  limit_nonneg := Int.one_nonneg
  windowMs_pos := sixtieth_pos

/-- The window of the first check ends at a reading that the store counts in the next. -/
def acrossStarts : List Ask := [.check "a" 1 1 1700000000034, .check "a" 1 1 1700000000050]

/-- What is said lets the request through. -/
def Said.allows : Said → Bool
  | .decided allowed => allowed
  | .threw _ | .expired => false

/-- **The store splits a window of the process.** The second check is in the window of the first for
the process, which denies it, and in a later one for the store, which leases it another unit. -/
theorem store_splits_window :
    ¬ ∀ (b : Budget) (hlimit : 0 < b.limit) (asks : List Ask),
      asks.Pairwise (fun a a' => a.time ≤ a'.time) →
        answers (@limiter doubles _ (withL2 b none hlimit) 1) (fresh (withL2 b none hlimit)) asks
          = answers (@limiter doubles _ (withoutL2 b none) 0) (fresh (withoutL2 b none)) asks := by
  intro h
  have hsame := congrArg (List.map fun said => said.map Said.allows)
    (h oneASixtieth (by decide) acrossStarts (by decide +kernel))
  revert hsame
  decide +kernel

end ThrottleKit.FairEscrow
