import Mathlib.Algebra.Order.BigOperators.Group.List
import ThrottleKit.Core.Types
import ThrottleKit.Lib.Machine

/-!
# The client side of a lease

A client leases a chunk of a global budget from the service and serves requests from it. It keeps
one balance of credits with one expiry: a grant adds to the balance and replaces the expiry, and the
balance is discarded at the first call at or past the expiry.

Who owns a credit is not recorded anywhere, so it is recorded here, in ghosts: `Account.lots` lists
the grants the balance may hold credits of. A spend says how much of it comes out of each lot, and
any split is allowed that takes no more than the lot has left.

## Main definitions

* `Spender`, `spend`, `applyLease`, `spendOrRefresh` — the code
* `Account`, `Op`, `step` — one call after the other, with the grants behind the balance
* `NeverExtends` — no grant lands on leftover credits with a later expiry than theirs

## Main results

* `spent_fresh` — where grants never extend, a credit is spent before its grant expires, or by the
  call that received it
* `merged_credit_spent_stale` — a grant that extends revives the credits it lands on
* `exists_spend`, `exists_spendOrRefresh` — every spend comes out of some lots
-/

namespace ThrottleKit.LeaseSpender

/-- The options of a `LeaseSpender`. -/
structure Options where
  /-- The ceiling reported on a synthesized allow. -/
  limit : ℚ
  /-- The fallback for `resetAt` before the first grant. -/
  ttlMs : ℚ
  /-- Discard what is left once the granting window has rolled. -/
  windowCoupled : Bool

/-- A grant of the service: `capacity` units until `expiresAt`. -/
structure LeaseGrant where
  capacity : ℚ
  expiresAt : ℚ

/-- What a refresh round trip yields. -/
inductive ReserveResult
  | grant (g : LeaseGrant)
  | denied (d : Decision)

/-- The state of a `LeaseSpender`. -/
structure Spender where
  credits : ℚ
  /-- The boundary the credits are coupled to. -/
  expiresAt : Option ℚ

/-- A spender as constructed. -/
def Spender.new : Spender := ⟨0, none⟩

/-- The outcome of `spend`. -/
inductive LeaseSpend
  | served (decision : Decision)
  | needsRefresh

/-- `applyLease(grant)`. -/
def Spender.applyLease (s : Spender) (grant : LeaseGrant) : Spender :=
  ⟨s.credits + grant.capacity, some grant.expiresAt⟩

/-- `expireIfRolled(now)`. -/
def Spender.expireIfRolled (opts : Options) (s : Spender) (now : ℚ) : Spender :=
  match s.expiresAt with
  | some expiresAt =>
    if opts.windowCoupled ∧ expiresAt ≤ now ∧ 0 < s.credits then { s with credits := 0 } else s
  | none => s

/-- `#spendLocal(now, cost)`. -/
def spendLocal (opts : Options) (s : Spender) (now cost : ℚ) : Spender × LeaseSpend :=
  if cost ≤ s.credits then
    let s' : Spender := { s with credits := s.credits - cost }
    (s', .served
      { allowed := true
        limit := opts.limit
        remaining := max 0 ⌊s'.credits⌋
        resetAt := s'.expiresAt.getD (now + opts.ttlMs)
        retryAfterMs := 0 })
  else (s, .needsRefresh)

/-- `spend(now, cost)`. -/
def spend (opts : Options) (s : Spender) (now cost : ℚ) : Except CostError (Spender × LeaseSpend) :=
  match requireCost cost with
  | .error err => .error err
  | .ok () => .ok (spendLocal opts (s.expireIfRolled opts now) now cost)

/-- How `spendOrRefresh` throws. -/
inductive RefreshError
  | invalidCost (error : CostError)
  /-- `reserve` rejected. -/
  | rejected
  | zeroCapacity
  | exceeded (maxRounds : ℕ) (cost : ℚ)
deriving DecidableEq

/-- The message of the thrown error; that of a rejected `reserve` is its own. -/
def RefreshError.message : RefreshError → Option String
  | .invalidCost error => some error.message
  | .rejected => none
  | .zeroCapacity => some
      ("Fleet.Reserve returned a zero-capacity grant without a denial; " ++
        "reserve() must grant >= 1 or deny")
  | .exceeded maxRounds cost => some <|
      "LeaseSpender.spendOrRefresh exceeded " ++ toString maxRounds
        ++ " refresh rounds for one request (cost=" ++ toString cost ++ ")"

/-- How `spendOrRefresh` ends. -/
inductive Refreshed
  /-- From local credits. -/
  | served (decision : Decision)
  /-- With the server's denial. -/
  | denied (decision : Decision)
  | threw (error : RefreshError)

variable {W : Type}

/-- The loop of `spendOrRefresh`, with `rounds` rounds to go. `reserve` may change a world `W` of
its own; it yields nothing when it rejects. -/
def refresh (opts : Options) (reserve : W → ℚ → W × Option ReserveResult) (maxRounds : ℕ)
    (now cost : ℚ) : ℕ → W → Spender → W × Spender × Refreshed
  | 0, w, s => (w, s, .threw (.exceeded maxRounds cost))
  | rounds + 1, w, s =>
    match spendLocal opts s now cost with
    | (s', .served d) => (w, s', .served d)
    | (_, .needsRefresh) =>
      match reserve w cost with
      | (w', none) => (w', s, .threw .rejected)
      | (w', some (.denied d)) => (w', s, .denied d)
      | (w', some (.grant g)) =>
        if g.capacity ≤ 0 then (w', s.applyLease g, .threw .zeroCapacity)
        else refresh opts reserve maxRounds now cost rounds w' (s.applyLease g)

/-- `spendOrRefresh(now, cost, reserve, maxRounds)`. -/
def spendOrRefresh (opts : Options) (reserve : W → ℚ → W × Option ReserveResult) (maxRounds : ℕ)
    (now cost : ℚ) (w : W) (s : Spender) : W × Spender × Refreshed :=
  match requireCost cost with
  | .error err => (w, s, .threw (.invalidCost err))
  | .ok () => refresh opts reserve maxRounds now cost maxRounds w (s.expireIfRolled opts now)

/-! ### Whose credits are spent -/

/-- A grant the balance may hold credits of. -/
structure Lot where
  /-- The call that received it. -/
  call : ℕ
  expiresAt : ℚ
  /-- The most that can be left of it. -/
  left : ℚ

/-- A spender with the grants behind its balance. The lots mean nothing while there are no
credits. -/
structure Account where
  spender : Spender
  lots : List Lot
  /-- The number of the next call. -/
  calls : ℕ
  /-- The latest instant a call was made at. -/
  clock : ℚ

/-- An account as opened. -/
def Account.new : Account := ⟨.new, [], 0, 0⟩

/-- `amount` credits of `lot` are spent by `call` at `now`. -/
structure Spent where
  call : ℕ
  now : ℚ
  lot : Lot
  amount : ℚ

/-- A grant lands: it starts the list anew when nothing is left. -/
def Account.receive (a : Account) (g : LeaseGrant) : Account :=
  { a with
    spender := a.spender.applyLease g
    lots := (if 0 < a.spender.credits then a.lots else []) ++ [⟨a.calls, g.expiresAt, g.capacity⟩] }

/-- Take `drawn` out of the lots, an amount a lot, unless a lot has not that much left. -/
def draw (call : ℕ) (now : ℚ) : List Lot → List ℚ → Option (List Lot × List Spent)
  | [], [] => some ([], [])
  | lot :: lots, amount :: drawn =>
    if 0 ≤ amount ∧ amount ≤ max 0 lot.left then
      (draw call now lots drawn).map fun r =>
        ({ lot with left := lot.left - amount } :: r.1,
          if 0 < amount then ⟨call, now, lot, amount⟩ :: r.2 else r.2)
    else none
  | _, _ => none

/-- A call at `now` has ended with the balance `s`. -/
def Account.finish (a : Account) (s : Spender) (now : ℚ) : Account :=
  { a with spender := s, calls := a.calls + 1, clock := now }

/-- A call at `now` has spent `cost` and left the balance `s`. -/
def Account.settle (a : Account) (s : Spender) (now cost : ℚ) (drawn : List ℚ) :
    Option (Account × List Spent) :=
  if drawn.sum = cost then
    (draw a.calls now a.lots drawn).map fun r => ({ a.finish s now with lots := r.1 }, r.2)
  else none

/-- One call. `replies` are those of `reserve`, in order, and `drawn` is what is spent of each
lot. -/
inductive Op
  | spend (now cost : ℚ) (drawn : List ℚ)
  | applyLease (grant : LeaseGrant)
  | spendOrRefresh (now cost : ℚ) (maxRounds : ℕ) (replies : List (Option ReserveResult))
      (drawn : List ℚ)

/-- A `reserve` that gives the replies of a list. -/
def popReply (replies : List (Option ReserveResult)) (_wants : ℚ) :
    List (Option ReserveResult) × Option ReserveResult :=
  (replies.tail, replies.headD none)

/-- The grant in a reply. -/
def grantOf : Option ReserveResult → Option LeaseGrant
  | some (.grant g) => some g
  | _ => none

/-- The account when the grants of a `spendOrRefresh` at `now` start to land. -/
def Account.enter (opts : Options) (a : Account) (now : ℚ) : Account :=
  { a with spender := a.spender.expireIfRolled opts now }

/-- The account when all grants of a `spendOrRefresh` at `now` have landed. -/
def Account.received (opts : Options) (a : Account) (now : ℚ)
    (replies : List (Option ReserveResult)) : Account :=
  (replies.filterMap grantOf).foldl Account.receive (a.enter opts now)

/-- One call after the other. -/
def step (opts : Options) : Machine Account Op Spent := fun a op =>
  match op with
  | .applyLease grant => some ({ a.receive grant with calls := a.calls + 1 }, [])
  | .spend now cost drawn =>
    match spend opts a.spender now cost with
    | .ok (s, .served _) => a.settle s now cost drawn
    | .ok (s, .needsRefresh) => some (a.finish s now, [])
    | .error _ => some (a.finish a.spender now, [])
  | .spendOrRefresh now cost maxRounds replies drawn =>
    -- the call makes exactly the round trips that are listed
    match spendOrRefresh opts popReply maxRounds now cost replies a.spender with
    | ([], s, ended) =>
      let a' := a.received opts now replies
      match ended with
      | .served _ => a'.settle s now cost drawn
      | _ => some (a'.finish s now, [])
    | _ => none

/-- The instant of a call. -/
def Op.time : Op → Option ℚ
  | .spend now _ _ => some now
  | .applyLease _ => none
  | .spendOrRefresh now _ _ _ _ => some now

/-- Calls are made at non-decreasing instants. -/
def InOrder (a : Account) (op : Op) : Prop := ∀ now ∈ op.time, a.clock ≤ now

instance (a : Account) (op : Op) : Decidable (InOrder a op) :=
  inferInstanceAs (Decidable (∀ now ∈ op.time, a.clock ≤ now))

/-- No grant lands on leftover credits with a later expiry than theirs. -/
def GrantsWithin : Spender → List LeaseGrant → Prop
  | _, [] => True
  | s, g :: gs =>
    (0 < s.credits → ∀ expiresAt ∈ s.expiresAt, g.expiresAt ≤ expiresAt) ∧
      GrantsWithin (s.applyLease g) gs

instance GrantsWithin.decidable : ∀ s gs, Decidable (GrantsWithin s gs)
  | _, [] => isTrue trivial
  | s, g :: gs =>
    have := GrantsWithin.decidable (s.applyLease g) gs
    inferInstanceAs (Decidable (_ ∧ _))

/-- **The condition.** No grant extends the life of credits left over from an earlier one. -/
def NeverExtends (opts : Options) (a : Account) : Op → Prop
  | .spend _ _ _ => True
  | .applyLease grant => GrantsWithin a.spender [grant]
  | .spendOrRefresh now _ _ replies _ =>
    GrantsWithin (a.spender.expireIfRolled opts now) (replies.filterMap grantOf)

instance (opts : Options) (a : Account) : ∀ op, Decidable (NeverExtends opts a op)
  | .spend _ _ _ => isTrue trivial
  | .applyLease grant => inferInstanceAs (Decidable (GrantsWithin a.spender [grant]))
  | .spendOrRefresh now _ _ replies _ => inferInstanceAs
      (Decidable (GrantsWithin (a.spender.expireIfRolled opts now) (replies.filterMap grantOf)))

/-- A credit is spent before its grant expires, or by the call that received it. -/
def Spent.Fresh (e : Spent) : Prop := e.lot.call = e.call ∨ e.now < e.lot.expiresAt

instance (e : Spent) : Decidable e.Fresh :=
  inferInstanceAs (Decidable (e.lot.call = e.call ∨ e.now < e.lot.expiresAt))

/-! ### Lots and balances -/

variable {opts : Options} {a a' : Account} {now cost : ℚ}

/-- While there are credits, no lot expires before the balance does. -/
def Covers (a : Account) : Prop :=
  ∀ lot ∈ a.lots, 0 < a.spender.credits → ∃ e ∈ a.spender.expiresAt, e ≤ lot.expiresAt

/-- While there are credits, the current call may spend of every lot at `now`. -/
def FreshAt (now : ℚ) (a : Account) : Prop :=
  ∀ lot ∈ a.lots, 0 < a.spender.credits → lot.call = a.calls ∨ now < lot.expiresAt

theorem mem_lots_receive {g : LeaseGrant} {lot : Lot} (h : lot ∈ (a.receive g).lots) :
    (0 < a.spender.credits ∧ lot ∈ a.lots) ∨ lot = ⟨a.calls, g.expiresAt, g.capacity⟩ := by
  rcases List.mem_append.mp h with hold | hnew
  · split at hold
    · rename_i hcredits
      exact .inl ⟨hcredits, hold⟩
    · cases hold
  · exact .inr (List.mem_singleton.mp hnew)

theorem Covers.receive {g : LeaseGrant} (h : Covers a) (hg : GrantsWithin a.spender [g]) :
    Covers (a.receive g) := by
  intro lot hlot _
  refine ⟨g.expiresAt, rfl, ?_⟩
  rcases mem_lots_receive hlot with ⟨hcredits, hold⟩ | rfl
  · obtain ⟨e, he, hle⟩ := h lot hold hcredits
    exact (hg.1 hcredits e he).trans hle
  · exact le_rfl

theorem FreshAt.receive {g : LeaseGrant} (h : FreshAt now a) : FreshAt now (a.receive g) := by
  intro lot hlot _
  rcases mem_lots_receive hlot with ⟨hcredits, hold⟩ | rfl
  · exact h lot hold hcredits
  · exact .inl rfl

/-- A sequence of grants lands in the balance as in the account. -/
theorem spender_foldl_receive (gs : List LeaseGrant) : ∀ a : Account,
    (gs.foldl Account.receive a).spender = gs.foldl Spender.applyLease a.spender ∧
      (gs.foldl Account.receive a).calls = a.calls := by
  induction gs with
  | nil => exact fun _ => ⟨rfl, rfl⟩
  | cons g gs ih => exact fun a => ih (a.receive g)

theorem Covers.foldl_receive : ∀ (gs : List LeaseGrant) {a : Account}, Covers a →
    GrantsWithin a.spender gs → Covers (gs.foldl Account.receive a)
  | [], _, h, _ => h
  | _ :: gs, _, h, hg => foldl_receive gs (h.receive ⟨hg.1, trivial⟩) hg.2

theorem FreshAt.foldl_receive : ∀ (gs : List LeaseGrant) {a : Account}, FreshAt now a →
    FreshAt now (gs.foldl Account.receive a)
  | [], _, h => h
  | _ :: gs, _, h => foldl_receive gs h.receive

theorem expiresAt_expireIfRolled (opts : Options) (s : Spender) (now : ℚ) :
    (s.expireIfRolled opts now).expiresAt = s.expiresAt := by
  unfold Spender.expireIfRolled
  split
  · split <;> rfl
  · rfl

/-- What is left after the discard was there before, and has not expired. -/
theorem credits_expireIfRolled {s : Spender} (h : 0 < (s.expireIfRolled opts now).credits) :
    (s.expireIfRolled opts now).credits = s.credits ∧
      (opts.windowCoupled = true → ∀ e ∈ s.expiresAt, now < e) := by
  unfold Spender.expireIfRolled at h ⊢
  cases he : s.expiresAt with
  | none => exact ⟨rfl, fun _ e hmem => by cases hmem⟩
  | some expiresAt =>
    simp only [he] at h ⊢
    split at h
    · exact absurd h (lt_irrefl _)
    · rename_i hroll
      rw [if_neg hroll]
      refine ⟨rfl, fun hcoupled e hmem => ?_⟩
      obtain rfl := Option.some.inj hmem
      exact not_le.mp fun hle => hroll ⟨hcoupled, hle, h⟩

theorem Covers.enter (opts : Options) (now : ℚ) (h : Covers a) : Covers (a.enter opts now) := by
  intro lot hlot hcredits
  obtain ⟨e, he, hle⟩ := h lot hlot ((credits_expireIfRolled hcredits).1 ▸ hcredits)
  exact ⟨e, (expiresAt_expireIfRolled opts a.spender now).symm ▸ he, hle⟩

theorem Covers.freshAt_enter (now : ℚ) (h : Covers a) (hcoupled : opts.windowCoupled = true) :
    FreshAt now (a.enter opts now) := by
  intro lot hlot hcredits
  obtain ⟨heq, hfresh⟩ := credits_expireIfRolled hcredits
  obtain ⟨e, he, hle⟩ := h lot hlot (heq ▸ hcredits)
  exact .inr ((hfresh hcoupled e he).trans_le hle)

/-! ### What a spend takes -/

/-- What is drawn comes out of the lots, and leaves lots of the same grants. -/
theorem draw_spec {call : ℕ} : ∀ {lots : List Lot} {drawn : List ℚ} {lots' : List Lot}
    {spent : List Spent}, draw call now lots drawn = some (lots', spent) →
    (∀ e ∈ spent, e.call = call ∧ e.now = now ∧ e.lot ∈ lots) ∧
      ∀ lot' ∈ lots', ∃ lot ∈ lots, lot'.call = lot.call ∧ lot'.expiresAt = lot.expiresAt
  | [], [], lots', spent, h => by
    obtain ⟨rfl, rfl⟩ := Prod.mk.inj (Option.some.inj h)
    simp
  | lot :: lots, amount :: drawn, lots', spent, h => by
    rw [draw] at h
    split at h
    · obtain ⟨⟨rest, more⟩, hrest, heq⟩ := Option.map_eq_some_iff.mp h
      obtain ⟨rfl, rfl⟩ := Prod.mk.inj heq
      obtain ⟨hspent, hlots⟩ := draw_spec hrest
      have hmore : ∀ e ∈ more, e.call = call ∧ e.now = now ∧ e.lot ∈ lot :: lots := fun e he =>
        ⟨(hspent e he).1, (hspent e he).2.1, List.mem_cons_of_mem _ (hspent e he).2.2⟩
      constructor
      · intro e he
        split at he
        · rcases List.mem_cons.mp he with rfl | he
          · exact ⟨rfl, rfl, List.mem_cons_self⟩
          · exact hmore e he
        · exact hmore e he
      · intro lot' hlot'
        rcases List.mem_cons.mp hlot' with rfl | hmem
        · exact ⟨lot, List.mem_cons_self, rfl, rfl⟩
        · obtain ⟨l, hl, h1, h2⟩ := hlots lot' hmem
          exact ⟨l, List.mem_cons_of_mem _ hl, h1, h2⟩
    · cases h
  | [], _ :: _, _, _, h => by cases h
  | _ :: _, [], _, _, h => by cases h

/-- The balance after a spend. -/
def Spender.charge (s : Spender) (cost : ℚ) : Spender := { s with credits := s.credits - cost }

/-- A spend out of fresh lots is fresh, and leaves a covered balance. -/
theorem settle_fresh {s : Spender} {drawn : List ℚ} {spent : List Spent} (hcovers : Covers a)
    (hfresh : FreshAt now a) (hpos : 0 < cost) (hle : cost ≤ a.spender.credits)
    (hs : s = a.spender.charge cost) (h : a.settle s now cost drawn = some (a', spent)) :
    Covers a' ∧ ∀ e ∈ spent, e.Fresh := by
  unfold Account.settle at h
  split at h
  · obtain ⟨⟨lots, more⟩, hdraw, heq⟩ := Option.map_eq_some_iff.mp h
    obtain ⟨rfl, rfl⟩ := Prod.mk.inj heq
    obtain ⟨hspent, hlots⟩ := draw_spec hdraw
    have hcredits : 0 < a.spender.credits := hpos.trans_le hle
    subst hs
    constructor
    · intro lot' hlot' _
      obtain ⟨lot, hlot, -, hexpires⟩ := hlots lot' hlot'
      rw [hexpires]
      exact hcovers lot hlot hcredits
    · intro e he
      obtain ⟨hcall, hnow, hlot⟩ := hspent e he
      rcases hfresh e.lot hlot hcredits with hown | hlt
      · exact .inl (hown.trans hcall.symm)
      · exact .inr (hnow ▸ hlt)
  · cases h

/-- `#spendLocal` charges the balance, or leaves it. -/
theorem spendLocal_cases (opts : Options) (s : Spender) (now cost : ℚ) :
    (cost ≤ s.credits ∧ ∃ d, spendLocal opts s now cost = (s.charge cost, .served d)) ∨
      (s.credits < cost ∧ spendLocal opts s now cost = (s, .needsRefresh)) := by
  unfold spendLocal
  by_cases h : cost ≤ s.credits
  · exact .inl ⟨h, _, if_pos h⟩
  · exact .inr ⟨not_le.mp h, if_neg h⟩

/-- The loop of `spendOrRefresh` lands the grants it is replied, and spends from what there is then
if it spends at all. -/
theorem refresh_spec {maxRounds : ℕ} : ∀ (rounds : ℕ) {replies rest : List (Option ReserveResult)}
    {s s' : Spender} {ended : Refreshed},
    refresh opts popReply maxRounds now cost rounds replies s = (rest, s', ended) →
    ∃ used, replies = used ++ rest ∧
      ((∃ d, ended = .served d ∧
          cost ≤ ((used.filterMap grantOf).foldl Spender.applyLease s).credits ∧
          s' = ((used.filterMap grantOf).foldl Spender.applyLease s).charge cost) ∨
        ((∀ d, ended ≠ .served d) ∧ s' = (used.filterMap grantOf).foldl Spender.applyLease s))
  | 0, replies, rest, s, s', ended, h => by
    obtain ⟨rfl, rfl, rfl⟩ :
        replies = rest ∧ s = s' ∧ .threw (.exceeded maxRounds cost) = ended := by
      simpa [refresh] using h
    exact ⟨[], rfl, .inr ⟨by simp, rfl⟩⟩
  | rounds + 1, replies, rest, s, s', ended, h => by
    rw [refresh] at h
    rcases spendLocal_cases opts s now cost with ⟨hle, d, hlocal⟩ | ⟨-, hlocal⟩
    · rw [hlocal] at h
      obtain ⟨rfl, rfl, rfl⟩ : replies = rest ∧ s.charge cost = s' ∧ .served d = ended := by
        simpa using h
      exact ⟨[], rfl, .inl ⟨d, rfl, hle, rfl⟩⟩
    · rw [hlocal] at h
      cases replies with
      | nil =>
        obtain ⟨rfl, rfl, rfl⟩ : [] = rest ∧ s = s' ∧ .threw .rejected = ended := by
          simpa [popReply] using h
        exact ⟨[], rfl, .inr ⟨by simp, rfl⟩⟩
      | cons reply replies =>
        rcases reply with _ | g | d
        · obtain ⟨rfl, rfl, rfl⟩ : replies = rest ∧ s = s' ∧ .threw .rejected = ended := by
            simpa [popReply] using h
          exact ⟨[none], rfl, .inr ⟨by simp, rfl⟩⟩
        · simp only [popReply, List.tail_cons, List.headD_cons] at h
          split at h
          · obtain ⟨rfl, rfl, rfl⟩ :
                replies = rest ∧ s.applyLease g = s' ∧ .threw .zeroCapacity = ended := by
              simpa using h
            exact ⟨[some (.grant g)], rfl, .inr ⟨by simp, rfl⟩⟩
          · obtain ⟨used, rfl, hends⟩ := refresh_spec rounds h
            exact ⟨some (.grant g) :: used, rfl, hends⟩
        · obtain ⟨rfl, rfl, rfl⟩ : replies = rest ∧ s = s' ∧ .denied d = ended := by
            simpa [popReply] using h
          exact ⟨[some (.denied d)], rfl, .inr ⟨by simp, rfl⟩⟩

/-- How `spendOrRefresh` ends, against the account its grants land in. -/
theorem spendOrRefresh_spec {maxRounds : ℕ} {replies : List (Option ReserveResult)} {s' : Spender}
    {ended : Refreshed}
    (h : spendOrRefresh opts popReply maxRounds now cost replies a.spender = ([], s', ended)) :
    (∃ d, ended = .served d ∧ 0 < cost ∧
        cost ≤ (a.received opts now replies).spender.credits ∧
        s' = (a.received opts now replies).spender.charge cost) ∨
      ((∀ d, ended ≠ .served d) ∧
        (s' = (a.received opts now replies).spender ∨ s' = a.spender ∧ replies = [])) := by
  rw [Account.received, (spender_foldl_receive _ _).1]
  unfold spendOrRefresh at h
  cases hcost : requireCost cost with
  | error err =>
    rw [hcost] at h
    obtain ⟨rfl, rfl, rfl⟩ : replies = [] ∧ a.spender = s' ∧ .threw (.invalidCost err) = ended := by
      simpa using h
    exact .inr ⟨by simp, .inr ⟨rfl, rfl⟩⟩
  | ok u =>
    rw [hcost] at h
    obtain ⟨used, hused, ⟨d, rfl, hle, rfl⟩ | ⟨hne, rfl⟩⟩ := refresh_spec _ h
    · rw [List.append_nil] at hused
      subst hused
      exact .inl ⟨d, rfl, pos_of_requireCost hcost, hle, rfl⟩
    · rw [List.append_nil] at hused
      subst hused
      exact .inr ⟨hne, .inl rfl⟩

/-! ### Every call -/

/-- The instant of a call that spends, and the replies that it gets. -/
def Op.spending : Op → Option (ℚ × List (Option ReserveResult))
  | .spend now _ _ => some (now, [])
  | .applyLease _ => none
  | .spendOrRefresh now _ _ replies _ => some (now, replies)

/-- **What a call can do.** It lands a grant; or it spends out of what is there once its grants have
landed; or it spends nothing, and leaves what has landed or, when it throws on its cost, what it
found. -/
theorem step_cases {op : Op} {spent : List Spent} (h : step opts a op = some (a', spent)) :
    (∃ g, op = .applyLease g ∧ a' = { a.receive g with calls := a.calls + 1 } ∧ spent = []) ∨
    ∃ now replies, op.spending = some (now, replies) ∧
      ((∃ cost drawn, 0 < cost ∧ cost ≤ (a.received opts now replies).spender.credits ∧
          (a.received opts now replies).settle
            ((a.received opts now replies).spender.charge cost) now cost drawn
              = some (a', spent)) ∨
        spent = [] ∧ (a' = (a.received opts now replies).finish
          (a.received opts now replies).spender now ∨ a' = a.finish a.spender now)) := by
  cases op with
  | applyLease grant =>
    obtain ⟨rfl, rfl⟩ := Prod.mk.inj (Option.some.inj h)
    exact .inl ⟨grant, rfl, rfl, rfl⟩
  | spend now cost drawn =>
    refine .inr ⟨now, [], rfl, ?_⟩
    cases hcost : requireCost cost with
    | error err =>
      simp only [step, spend, hcost] at h
      obtain ⟨rfl, rfl⟩ := Prod.mk.inj (Option.some.inj h)
      exact .inr ⟨rfl, .inr rfl⟩
    | ok u =>
      simp only [step, spend, hcost] at h
      rcases spendLocal_cases opts (a.spender.expireIfRolled opts now) now cost with
        ⟨hle, d, hlocal⟩ | ⟨-, hlocal⟩
      · simp only [hlocal] at h
        exact .inl ⟨cost, drawn, pos_of_requireCost hcost, hle, h⟩
      · simp only [hlocal] at h
        obtain ⟨rfl, rfl⟩ := Prod.mk.inj (Option.some.inj h)
        exact .inr ⟨rfl, .inl rfl⟩
  | spendOrRefresh now cost maxRounds replies drawn =>
    refine .inr ⟨now, replies, rfl, ?_⟩
    dsimp only [step] at h
    split at h
    · rename_i s' ended hcall
      rcases spendOrRefresh_spec hcall with ⟨d, rfl, hpos, hle, rfl⟩ | ⟨hne, hs'⟩
      · exact .inl ⟨cost, drawn, hpos, hle, h⟩
      · have hfinish :
            some ((a.received opts now replies).finish s' now, []) = some (a', spent) := by
          cases ended with
          | served d => exact absurd rfl (hne d)
          | denied d => exact h
          | threw err => exact h
        obtain ⟨rfl, rfl⟩ := Prod.mk.inj (Option.some.inj hfinish)
        rcases hs' with rfl | ⟨rfl, rfl⟩
        · exact .inr ⟨rfl, .inl rfl⟩
        · exact .inr ⟨rfl, .inr rfl⟩
    · cases h

theorem Covers.finish {s : Spender} (h : Covers a) (hs : 0 < s.credits →
    0 < a.spender.credits ∧ s.expiresAt = a.spender.expiresAt) : Covers (a.finish s now) := by
  intro lot hlot hcredits
  obtain ⟨hold, heq⟩ := hs hcredits
  obtain ⟨e, he, hle⟩ := h lot hlot hold
  exact ⟨e, heq ▸ he, hle⟩

theorem NeverExtends.grantsWithin {op : Op} {replies : List (Option ReserveResult)}
    (h : NeverExtends opts a op) (hop : op.spending = some (now, replies)) :
    GrantsWithin (a.spender.expireIfRolled opts now) (replies.filterMap grantOf) := by
  cases op with
  | applyLease grant => cases hop
  | spend now cost drawn =>
    obtain ⟨rfl, rfl⟩ := Prod.mk.inj (Option.some.inj hop)
    exact trivial
  | spendOrRefresh now cost maxRounds replies drawn =>
    obtain ⟨rfl, rfl⟩ := Prod.mk.inj (Option.some.inj hop)
    exact h

/-- One call keeps the balance covered and spends fresh credits. -/
theorem step_fresh (hcoupled : opts.windowCoupled = true) {op : Op} {spent : List Spent}
    (hI : Covers a) (hok : NeverExtends opts a op) (h : step opts a op = some (a', spent)) :
    Covers a' ∧ ∀ e ∈ spent, e.Fresh := by
  rcases step_cases h with ⟨g, rfl, rfl, rfl⟩ | ⟨now, replies, hop, hend⟩
  · exact ⟨hI.receive hok, by simp⟩
  · have hcovers := (hI.enter opts now).foldl_receive _ (hok.grantsWithin hop)
    have hfresh := (hI.freshAt_enter now hcoupled).foldl_receive (replies.filterMap grantOf)
    rcases hend with ⟨cost, drawn, hpos, hle, hsettle⟩ | ⟨rfl, rfl | rfl⟩
    · exact settle_fresh hcovers hfresh hpos hle rfl hsettle
    · exact ⟨hcovers.finish fun hcredits => ⟨hcredits, rfl⟩, by simp⟩
    · exact ⟨hI.finish fun hcredits => ⟨hcredits, rfl⟩, by simp⟩

/-- **No credit is spent once its grant has expired**, but by the call that received the grant, in
every run in which no grant extends the life of leftover credits. -/
theorem spent_fresh (hcoupled : opts.windowCoupled = true) {log : List Spent}
    (h : (step opts).Run (NeverExtends opts) .new log a) : ∀ e ∈ log, e.Fresh := by
  refine (h.invariant (I := fun a log => Covers a ∧ ∀ e ∈ log, e.Fresh) ?_ ?_).2
  · exact ⟨fun lot hlot => (List.not_mem_nil hlot).elim, by simp⟩
  · intro a log op a' new hI hok hstep
    obtain ⟨hcovers, hnew⟩ := step_fresh hcoupled hI.1 hok hstep
    refine ⟨hcovers, fun e he => ?_⟩
    rcases List.mem_append.mp he with hold | hlast
    · exact hI.2 e hold
    · exact hnew e hlast

/-- A window-coupled spender under a limit of ten. -/
def coupled : Options := ⟨10, 1000, true⟩

/-- A client that leases twice within a window and, once it has rolled, refreshes. -/
theorem spent_fresh_refresh :
    ((((step coupled).exec .new
      [.applyLease ⟨2, 1000⟩, .spend 100 1 [1], .applyLease ⟨2, 1000⟩, .spend 900 2 [1, 1],
        .spendOrRefresh 1000 3 1024 [some (.grant ⟨5, 2000⟩)] [3]]).get
          (by decide +kernel)).2.getLast
      (by decide +kernel)).Fresh :=
  spent_fresh rfl (Machine.run_of_isSome (by decide +kernel) (by decide +kernel)) _
    (List.getLast_mem _)

/-- Two grants of one credit, expiring at 1000 and at 2000, land before either is spent. At 1500
both are spent at once, so one of them 500 after it expired. -/
theorem merged_credit_spent_stale :
    ¬ ∀ log a, (step coupled).Run InOrder .new log a → ∀ e ∈ log, e.Fresh := by
  intro h
  have hrun := Machine.run_of_isSome (m := step coupled) (p := InOrder) (s := .new)
    (l := [.applyLease ⟨1, 1000⟩, .spend 500 2 [], .applyLease ⟨1, 2000⟩, .spend 1500 2 [1, 1]])
    (by decide +kernel) (by decide +kernel)
  exact absurd (h _ _ hrun) (by decide +kernel)

/-! ### Every spend comes out of some lots -/

/-- What can be left of the lots together. -/
def total (lots : List Lot) : ℚ := (lots.map fun lot => max 0 lot.left).sum

theorem total_nonneg (lots : List Lot) : 0 ≤ total lots := by
  refine List.sum_nonneg fun x hx => ?_
  obtain ⟨lot, -, rfl⟩ := List.mem_map.mp hx
  exact le_max_left 0 _

/-- Lots that hold an amount can be drawn on for it. -/
theorem exists_draw (call : ℕ) (now : ℚ) : ∀ (lots : List Lot) {cost : ℚ}, 0 ≤ cost →
    cost ≤ total lots → ∃ drawn, drawn.sum = cost ∧ (draw call now lots drawn).isSome
  | [], cost, hpos, hle => ⟨[], le_antisymm hpos hle, rfl⟩
  | lot :: lots, cost, hpos, hle => by
    have htotal : total (lot :: lots) = max 0 lot.left + total lots := List.sum_cons
    have hleft : (0 : ℚ) ≤ max 0 lot.left := le_max_left 0 _
    have hrest : cost - min cost (max 0 lot.left) ≤ total lots := by
      rcases min_cases cost (max 0 lot.left) with ⟨heq, -⟩ | ⟨heq, -⟩
      · rw [heq, sub_self]
        exact total_nonneg lots
      · rw [heq]
        linarith
    obtain ⟨drawn, hsum, hdraw⟩ := exists_draw call now lots
      (sub_nonneg.mpr (min_le_left cost (max 0 lot.left))) hrest
    refine ⟨min cost (max 0 lot.left) :: drawn, ?_, ?_⟩
    · rw [List.sum_cons, hsum]
      exact add_sub_cancel _ _
    · rw [draw, if_pos ⟨le_min hpos hleft, min_le_right _ _⟩, Option.isSome_map]
      exact hdraw

/-- Drawing takes from the total what is drawn, at the most. -/
theorem total_draw {call : ℕ} : ∀ {lots : List Lot} {drawn : List ℚ} {lots' : List Lot}
    {spent : List Spent}, draw call now lots drawn = some (lots', spent) →
    total lots ≤ total lots' + drawn.sum
  | [], [], lots', spent, h => by
    obtain ⟨rfl, rfl⟩ := Prod.mk.inj (Option.some.inj h)
    simp
  | lot :: lots, amount :: drawn, lots', spent, h => by
    rw [draw] at h
    split at h
    · rename_i hamount
      obtain ⟨⟨rest, more⟩, hrest, heq⟩ := Option.map_eq_some_iff.mp h
      obtain ⟨rfl, rfl⟩ := Prod.mk.inj heq
      have hlot : max 0 lot.left ≤ max 0 (lot.left - amount) + amount := by
        refine max_le ?_ ?_
        · linarith [le_max_left 0 (lot.left - amount)]
        · linarith [le_max_right 0 (lot.left - amount)]
      have hlots := total_draw hrest
      show max 0 lot.left + total lots
        ≤ max 0 (lot.left - amount) + total rest + (amount :: drawn).sum
      rw [List.sum_cons]
      linarith
    · cases h
  | [], _ :: _, _, _, h => by cases h
  | _ :: _, [], _, _, h => by cases h

/-- The lots account for the balance. -/
def Accounted (a : Account) : Prop := 0 < a.spender.credits → a.spender.credits ≤ total a.lots

theorem Accounted.receive (h : Accounted a) (g : LeaseGrant) : Accounted (a.receive g) := by
  intro _
  have htotal : total (a.receive g).lots
      = total (if 0 < a.spender.credits then a.lots else []) + max 0 g.capacity := by
    simp [Account.receive, total]
  have hold : a.spender.credits ≤ total (if 0 < a.spender.credits then a.lots else []) := by
    split
    · exact h ‹_›
    · exact not_lt.mp ‹_›
  rw [htotal]
  exact add_le_add hold (le_max_right 0 _)

theorem Accounted.foldl_receive : ∀ (gs : List LeaseGrant) {a : Account}, Accounted a →
    Accounted (gs.foldl Account.receive a)
  | [], _, h => h
  | g :: gs, _, h => foldl_receive gs (h.receive g)

theorem Accounted.enter (opts : Options) (now : ℚ) (h : Accounted a) :
    Accounted (a.enter opts now) := fun hcredits =>
  (credits_expireIfRolled hcredits).1 ▸ h ((credits_expireIfRolled hcredits).1 ▸ hcredits)

theorem Accounted.settle {drawn : List ℚ} {spent : List Spent} (hI : Accounted a) (hpos : 0 < cost)
    (hle : cost ≤ a.spender.credits)
    (h : a.settle (a.spender.charge cost) now cost drawn = some (a', spent)) : Accounted a' := by
  unfold Account.settle at h
  split at h
  · rename_i hsum
    obtain ⟨⟨lots, more⟩, hdraw, heq⟩ := Option.map_eq_some_iff.mp h
    obtain ⟨rfl, rfl⟩ := Prod.mk.inj heq
    intro _
    have htotal := total_draw hdraw
    show a.spender.credits - cost ≤ total lots
    linarith [hI (hpos.trans_le hle)]
  · cases h

/-- A spend within the balance can be settled. -/
theorem Accounted.exists_settle (hI : Accounted a) (s : Spender) (now : ℚ) (hpos : 0 < cost)
    (hle : cost ≤ a.spender.credits) : ∃ drawn, (a.settle s now cost drawn).isSome := by
  obtain ⟨drawn, hsum, hdraw⟩ := exists_draw a.calls now a.lots hpos.le
    (hle.trans (hI (hpos.trans_le hle)))
  refine ⟨drawn, ?_⟩
  rw [Account.settle, if_pos hsum, Option.isSome_map]
  exact hdraw

theorem Accounted.step {op : Op} {spent : List Spent} (hI : Accounted a)
    (h : step opts a op = some (a', spent)) : Accounted a' := by
  rcases step_cases h with ⟨g, rfl, rfl, rfl⟩ | ⟨now, replies, -, hend⟩
  · exact hI.receive g
  · have hreceived := (hI.enter opts now).foldl_receive (replies.filterMap grantOf)
    rcases hend with ⟨cost, drawn, hpos, hle, hsettle⟩ | ⟨rfl, rfl | rfl⟩
    · exact hreceived.settle hpos hle hsettle
    · exact hreceived
    · exact hI

/-- **After any calls, every `spend` can be accounted for.** -/
theorem exists_spend {ok : Account → Op → Prop} {log : List Spent} (now cost : ℚ)
    (h : (step opts).Run ok .new log a) :
    ∃ drawn, (step opts a (.spend now cost drawn)).isSome := by
  have hI : Accounted a := h.invariant (I := fun a _ => Accounted a)
    (fun hpos => absurd hpos (lt_irrefl _)) fun _ _ _ _ _ hI _ hstep => hI.step hstep
  cases hcost : requireCost cost with
  | error err =>
    simp only [step, spend, hcost]
    exact ⟨[], rfl⟩
  | ok u =>
    simp only [step, spend, hcost]
    rcases spendLocal_cases opts (a.spender.expireIfRolled opts now) now cost with
      ⟨hle, d, hlocal⟩ | ⟨-, hlocal⟩
    · simp only [hlocal]
      exact (hI.enter opts now).exists_settle _ now (pos_of_requireCost hcost) hle
    · simp only [hlocal]
      exact ⟨[], rfl⟩

/-- **After any calls, every `spendOrRefresh` can be accounted for**, once its replies are known. -/
theorem exists_spendOrRefresh {ok : Account → Op → Prop} {log : List Spent} {maxRounds : ℕ}
    {replies : List (Option ReserveResult)} (h : (step opts).Run ok .new log a)
    (hreplies : (spendOrRefresh opts popReply maxRounds now cost replies a.spender).1 = []) :
    ∃ drawn, (step opts a (.spendOrRefresh now cost maxRounds replies drawn)).isSome := by
  have hI : Accounted a := h.invariant (I := fun a _ => Accounted a)
    (fun hpos => absurd hpos (lt_irrefl _)) fun _ _ _ _ _ hI _ hstep => hI.step hstep
  obtain ⟨s', ended, hcall⟩ : ∃ s' ended,
      spendOrRefresh opts popReply maxRounds now cost replies a.spender = ([], s', ended) :=
    ⟨_, _, Prod.ext hreplies rfl⟩
  simp only [step, hcall]
  rcases spendOrRefresh_spec hcall with ⟨d, rfl, hpos, hle, rfl⟩ | ⟨hne, -⟩
  · exact ((hI.enter opts now).foldl_receive _).exists_settle _ now hpos hle
  · cases ended with
    | served d => exact absurd rfl (hne d)
    | denied d => exact ⟨[], rfl⟩
    | threw err => exact ⟨[], rfl⟩

end ThrottleKit.LeaseSpender
