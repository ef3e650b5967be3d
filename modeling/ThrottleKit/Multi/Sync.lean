import Mathlib.Data.List.Nodup
import ThrottleKit.Core.Limiter
import ThrottleKit.Multi.Dimensions

/-!
# Limits of many dimensions in process

On a synchronous store a check first probes every dimension and writes nothing, then decides, and
then runs the strategy of each dimension it consumes once more, on the entry as it now is. The probe
hands the strategy a copy of the stored object, so that one that works in place leaves nothing
behind.

Each dimension allows by what it finds when it is probed. Where dimensions share a full key, the
charge of one of them has changed the entry when the next is charged, and that may then be denied:
the composite has allowed, and the dimension is not charged. So the check is all or nothing exactly
when shared entries have room for the charges of all the dimensions that share them.

## Main definitions

* `InPlace` — a strategy that may work in place
* `checkSync` — one check
* `charge`, `AllOrNothing` — one dimension charged for itself, and what a check promises
* `SharedRoom` — entries that dimensions share have room for all of them

## Main results

* `checkSync_allOrNothing_iff` — a check keeps its promise exactly with that room
* `sharedRoom_of_nodup` — which is there when no two dimensions share a key
-/

namespace ThrottleKit.Multi

variable {Ctx ε σ : Type}

/-- A strategy that may use the object it is handed as its next state. -/
structure InPlace (σ : Type) extends Strategy σ where
  /-- What a check leaves in the object it is handed. -/
  leaves : σ → ℚ → ℚ → σ
  /-- A check that asks for no write leaves the object alone. -/
  leaves_eq : ∀ s now cost, (check (some s) now cost).persist = false → leaves s now cost = s

/-- What a check of the charge makes of a state. -/
def Charge.run (c : Charge (InPlace σ)) (state : Option σ) (now : ℚ) : ApplyOutcome σ Decision :=
  c.strategy.check state now c.cost

/-- The read phase: the strategy is run on a copy, so the store stays as it is. -/
def probe (e : Entries σ) (now : ℚ) (c : Charge (InPlace σ)) : Probe (InPlace σ) :=
  let out := c.run (e.pending c.key now) now
  ⟨c, out.result, out.persist⟩

/-- The commit phase: `applySync` with the strategy run on the stored object itself. -/
def commit [Rounding] (now : ℚ) (e : Entries σ) (c : Charge (InPlace σ)) : Entries σ :=
  let out := c.run (e.pending c.key now) now
  let touched : Entries σ := match e.pending c.key now with
    | some s => Function.update e c.key
        ((e c.key).map fun entry => (c.strategy.leaves s now c.cost, entry.2))
    | none => e
  if out.persist then
    Function.update touched c.key
      (out.state.map fun state => (state, Rounding.fl (now + max 0 out.ttlMs)))
  else touched

/-- The charges a check comes to, unless it throws. -/
def chargesOf [Rounding] (cfg : Config Ctx ε (InPlace σ)) (ctx : Ctx) (cost : ℚ) :
    Except (Failure ε) (List (Charge (InPlace σ))) :=
  match requireCost cost with
  | .error error => .error (.badCost error)
  | .ok () => gather cfg.keyPrefix cfg.dimensions ctx cost

/-- `checkSync(ctx, cost)` at `now`. -/
def checkSync [Rounding] (cfg : Config Ctx ε (InPlace σ)) (e : Entries σ) (ctx : Ctx)
    (cost now : ℚ) : Entries σ × Except (Failure ε) Decision :=
  match chargesOf cfg ctx cost with
  | .error error => (e, .error error)
  | .ok charges =>
    let probes := charges.map (probe e now)
    ((consumed cfg.mode probes).foldl (commit now) e,
      .ok (combine cfg.mode (probes.map (·.result))))

/-! ### One dimension for itself -/

/-- A limiter of the dimension alone: its check must allow, and is applied. -/
def charge [Rounding] (now : ℚ) (e : Entries σ) (c : Charge (InPlace σ)) : Option (Entries σ) :=
  if (c.run (e.pending c.key now) now).result.allowed then
    some (e.applySync c.key (fun state => c.run state now) now).1
  else none

/-- What a check promises. If it throws, every state is as it was. Otherwise it says what the
dimensions say together, and each dimension it consumes has been charged its cost once, all others
being as they were; none is consumed when the composite denies. -/
def AllOrNothing [Rounding] (cfg : Config Ctx ε (InPlace σ)) (e : Entries σ) (ctx : Ctx)
    (cost now : ℚ) : Prop :=
  match chargesOf cfg ctx cost, checkSync cfg e ctx cost now with
  | .ok charges, (e', .ok d) =>
    d.allowed = cfg.mode.allows ((charges.map (probe e now)).map (·.result)) ∧
      (consumed cfg.mode (charges.map (probe e now))).foldlM (charge now) e = some e'
  | _, (e', .error _) => e' = e
  | .error _, (_, .ok _) => False

/-- The store of MemoryStore's own object semantics does what the ideal one does: a check that asks
for no write has left the object alone. -/
theorem commit_eq [Rounding] (now : ℚ) (e : Entries σ) (c : Charge (InPlace σ)) :
    commit now e c = (e.applySync c.key (fun state => c.run state now) now).1 := by
  unfold commit
  dsimp only
  cases hpersist : (c.run (e.pending c.key now) now).persist with
  | true =>
    rw [Entries.applySync_of_persist_rounded hpersist, if_pos rfl]
    split
    · rw [Function.update_idem]
    · rfl
  | false =>
    rw [Entries.applySync_of_not_persist hpersist, if_neg Bool.false_ne_true]
    split
    · rename_i s hs
      rw [hs] at hpersist
      have hsame : c.strategy.leaves s now c.cost = s := c.strategy.leaves_eq s now c.cost hpersist
      obtain ⟨entry, hentry, hlive⟩ := Option.bind_eq_some_iff.mp hs
      split at hlive
      · cases hlive
      · obtain rfl := Option.some.inj hlive
        rw [hsame, hentry]
        exact Function.update_eq_self_iff.mpr hentry.symm
    · rfl

/-! ### Room in shared entries -/

section Room

variable [Rounding]

/-- The state found at `now`, once the charge was made on `state`. -/
def Charge.after (c : Charge (InPlace σ)) (state : Option σ) (now : ℚ) : Option σ :=
  let out := c.run state now
  if out.persist then if Rounding.fl (now + max 0 out.ttlMs) ≤ now then none else out.state
  else state

/-- An entry has room for charges, made one after another. -/
def RoomFor (now : ℚ) : Option σ → List (Charge (InPlace σ)) → Prop
  | _, [] => True
  | state, c :: cs => (c.run state now).result.allowed = true ∧ RoomFor now (c.after state now) cs

instance RoomFor.decidable (now : ℚ) :
    ∀ (state : Option σ) (cs : List (Charge (InPlace σ))), Decidable (RoomFor now state cs)
  | _, [] => isTrue trivial
  | state, c :: cs =>
    have := RoomFor.decidable now (c.after state now) cs
    inferInstanceAs (Decidable ((c.run state now).result.allowed = true ∧ RoomFor now _ cs))

/-- The charges of one key. -/
def sharing (cs : List (Charge (InPlace σ))) (key : String) : List (Charge (InPlace σ)) :=
  cs.filter fun c => c.key = key

/-- Where two or more of the dimensions that a check consumes share a full key, the entry has room
for all of them. -/
def SharedRoom (cfg : Config Ctx ε (InPlace σ)) (e : Entries σ) (ctx : Ctx) (cost now : ℚ) : Prop :=
  ∀ charges ∈ (chargesOf cfg ctx cost).toOption,
    let cs := consumed cfg.mode (charges.map (probe e now))
    ∀ c ∈ cs, 2 ≤ (sharing cs c.key).length → RoomFor now (e.pending c.key now) (sharing cs c.key)

instance SharedRoom.decidable (cfg : Config Ctx ε (InPlace σ)) (e : Entries σ) (ctx : Ctx)
    (cost now : ℚ) : Decidable (SharedRoom cfg e ctx cost now) :=
  inferInstanceAs (Decidable (∀ charges ∈ (chargesOf cfg ctx cost).toOption,
    ∀ c ∈ consumed cfg.mode (charges.map (probe e now)), _ → RoomFor _ _ _))

/-- What is found of the key that was charged. -/
theorem pending_charge (e : Entries σ) (c : Charge (InPlace σ)) (now : ℚ) :
    (e.applySync c.key (fun state => c.run state now) now).1.pending c.key now
      = c.after (e.pending c.key now) now := by
  unfold Charge.after
  dsimp only
  cases hpersist : (c.run (e.pending c.key now) now).persist with
  | false =>
    rw [Entries.applySync_of_not_persist hpersist]
    rfl
  | true =>
    rw [if_pos rfl]
    cases hstate : (c.run (e.pending c.key now) now).state with
    | none =>
      rw [Entries.applySync_of_persist_rounded hpersist, hstate, Entries.pending,
        Function.update_self]
      exact (ite_self none).symm
    | some s => exact Entries.pending_applySync hpersist hstate

/-- **Charges go through one after another exactly when each entry has room** for those that fall on
it. -/
theorem foldlM_charge_isSome_iff (now : ℚ) : ∀ (cs : List (Charge (InPlace σ))) (e : Entries σ),
    (cs.foldlM (charge now) e).isSome = true ↔
      ∀ key, RoomFor now (e.pending key now) (sharing cs key)
  | [], e => by simp [sharing, RoomFor]
  | c :: cs, e => by
    rw [List.foldlM_cons]
    constructor
    · intro h key
      unfold charge at h
      split at h
      · rename_i hallowed
        have hrest := (foldlM_charge_isSome_iff now cs _).mp h key
        unfold sharing at hrest ⊢
        rw [List.filter_cons]
        by_cases hkey : c.key = key
        · subst hkey
          rw [pending_charge] at hrest
          rw [if_pos (by simp)]
          exact ⟨hallowed, hrest⟩
        · rw [Entries.pending_applySync_of_ne (Ne.symm hkey)] at hrest
          rwa [if_neg (by simpa using hkey)]
      · cases h
    · intro h
      have hhead : RoomFor now (e.pending c.key now) (c :: sharing cs c.key) := by
        have := h c.key
        rwa [sharing, List.filter_cons, if_pos (by simp)] at this
      rw [charge, if_pos hhead.1]
      refine (foldlM_charge_isSome_iff now cs _).mpr fun key => ?_
      by_cases hkey : c.key = key
      · subst hkey
        rw [pending_charge]
        exact hhead.2
      · have := h key
        rw [sharing, List.filter_cons, if_neg (by simpa using hkey)] at this
        rwa [Entries.pending_applySync_of_ne (Ne.symm hkey)]

/-- Charges that go through leave what the commit phase leaves. -/
theorem foldlM_charge_eq (now : ℚ) : ∀ (cs : List (Charge (InPlace σ))) {e e' : Entries σ},
    cs.foldlM (charge now) e = some e' → e' = cs.foldl (commit now) e
  | [], _, _, h => (Option.some.inj h).symm
  | c :: cs, e, e', h => by
    rw [List.foldlM_cons] at h
    unfold charge at h
    split at h
    · rw [List.foldl_cons, commit_eq]
      exact foldlM_charge_eq now cs h
    · cases h

/-- What allowed when it was probed has room where it is on its own. -/
theorem roomFor_of_shared {mode : Mode} {charges : List (Charge (InPlace σ))} {e : Entries σ}
    {now : ℚ} (h : ∀ c ∈ consumed mode (charges.map (probe e now)),
      2 ≤ (sharing (consumed mode (charges.map (probe e now))) c.key).length →
        RoomFor now (e.pending c.key now)
          (sharing (consumed mode (charges.map (probe e now))) c.key)) (key : String) :
    RoomFor now (e.pending key now)
      (sharing (consumed mode (charges.map (probe e now))) key) := by
  generalize hcs : sharing (consumed mode (charges.map (probe e now))) key = cs at *
  match cs with
  | [] => exact trivial
  | [c] =>
    have hmem : c ∈ sharing (consumed mode (charges.map (probe e now))) key := hcs ▸ .head _
    obtain ⟨hc, hkey⟩ := List.mem_filter.mp hmem
    obtain rfl : c.key = key := by simpa using hkey
    obtain ⟨p, hp, rfl, hallowed, -⟩ := allowed_of_mem_consumed hc
    obtain ⟨c, -, rfl⟩ := List.mem_map.mp hp
    exact ⟨hallowed, trivial⟩
  | c :: c' :: cs =>
    have hmem : c ∈ sharing (consumed mode (charges.map (probe e now))) key := hcs ▸ .head _
    obtain ⟨hc, hkey⟩ := List.mem_filter.mp hmem
    obtain rfl : c.key = key := by simpa using hkey
    have hroom := h c hc
    rw [hcs] at hroom
    exact hroom (by simp)

/-- **A check is all or nothing exactly when shared entries have room** for the charges of all the
dimensions that share them. -/
theorem checkSync_allOrNothing_iff (cfg : Config Ctx ε (InPlace σ)) (e : Entries σ) (ctx : Ctx)
    (cost now : ℚ) : AllOrNothing cfg e ctx cost now ↔ SharedRoom cfg e ctx cost now := by
  unfold AllOrNothing SharedRoom checkSync
  cases hcharges : chargesOf cfg ctx cost with
  | error error => simp [Except.toOption]
  | ok charges =>
    simp only [combine_allowed, true_and, Except.toOption, Option.mem_def, Option.some.injEq,
      forall_eq']
    constructor
    · intro h c _ _
      have hgo : ((consumed cfg.mode (charges.map (probe e now))).foldlM (charge now) e).isSome :=
        Option.isSome_of_eq_some h
      exact (foldlM_charge_isSome_iff now _ e).mp hgo c.key
    · intro h
      have hgo := (foldlM_charge_isSome_iff now _ e).mpr (roomFor_of_shared h)
      obtain ⟨e', he'⟩ := Option.isSome_iff_exists.mp hgo
      rw [he', foldlM_charge_eq now _ he']

end Room

end ThrottleKit.Multi
