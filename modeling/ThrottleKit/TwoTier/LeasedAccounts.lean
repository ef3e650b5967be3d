import ThrottleKit.Lib.Purse
import ThrottleKit.TwoTier.LeasedMoves

/-!
# The accounts of the leased mode

An account is a key and a window, named by its start. The store's charges pay into the window of the
lease's reading; an admission takes out of the window of one of its two readings, that of its entry
or that of its return. Over a run in which the store applies the leases in window order, no window
of a key is charged more than the limit.

## Main definitions

* `posting`, `totalCharged`, `totalAdmitted` — the account movements and the totals
* `repliedTo` — what a reply on its way holds for an account
* `ServesInOrder`, `CountsPlainly` — the store applies a lease in window order, without rounding

## Main results

* `totalCharged_le_limit` — no window is charged more than the limit
-/

namespace ThrottleKit.Leased

open Machine Purse Rounding

variable [Rounding] {Sizer : Type} {ι : Type}

/-! ### Charges and admissions -/

/-- Which of its two readings places an admission in a window. -/
inductive Counted
  | atEntry
  | atReturn

/-- The reading that counts. -/
def Counted.reading : Counted → ℚ → ℚ → ℚ
  | .atEntry, entered, _ => entered
  | .atReturn, _, at' => at'

/-- The account movements of an event. -/
def posting (win : FixedWindow.Config) (by' : Counted) : Event → List (Posting (String × ℚ) ℚ)
  | .charged key now amount => [.credit (key, startOf win.windowMs now) amount]
  | .decided _ key cost entered at' d =>
    if d.allowed then
      [.debit (key, startOf win.windowMs (by'.reading entered at')) cost]
    else []
  | .rejected _ _ | .failed _ => []

/-- What an event charges to the window of `key` starting at `w`. -/
def chargedFor (win : FixedWindow.Config) (key : String) (w : ℚ) : Event → ℚ
  | .charged k now amount => if (k, startOf win.windowMs now) = (key, w) then amount else 0
  | _ => 0

/-- What an event admits of `key` in the window starting at `w`. -/
def admittedFor (win : FixedWindow.Config) (by' : Counted) (key : String) (w : ℚ) : Event → ℚ
  | .decided _ k cost entered at' d =>
    if d.allowed then
      if (k, startOf win.windowMs (by'.reading entered at')) = (key, w) then cost else 0
    else 0
  | _ => 0

/-- What the store charged to the window of `key` starting at `w`. -/
def totalCharged (win : FixedWindow.Config) (key : String) (w : ℚ) (log : List Event) : ℚ :=
  (log.map (chargedFor win key w)).sum

/-- What was admitted of `key` in the window starting at `w`. -/
def totalAdmitted (win : FixedWindow.Config) (by' : Counted) (key : String) (w : ℚ)
    (log : List Event) : ℚ :=
  (log.map (admittedFor win by' key w)).sum

theorem debited_ledger (win : FixedWindow.Config) (by' : Counted) (key : String) (w : ℚ)
    (log : List Event) :
    debited (fun k => k = (key, w)) (ledger (posting win by') log)
      = totalAdmitted win by' key w log := by
  refine debited_ledger_eq_sum (fun ev => ?_) log
  cases ev with
  | decided id k cost entered at' d =>
    cases hd : d.allowed <;> simp [posting, debitOf, admittedFor, hd]
  | charged k now amount => simp [posting, debitOf, admittedFor]
  | _ => rfl

theorem credited_ledger (win : FixedWindow.Config) (by' : Counted) (key : String) (w : ℚ)
    (log : List Event) :
    credited (fun k => k = (key, w)) (ledger (posting win by') log)
      = totalCharged win key w log := by
  refine credited_ledger_eq_sum (fun ev => ?_) log
  cases ev with
  | decided id k cost entered at' d =>
    cases hd : d.allowed <;> simp [posting, creditOf, chargedFor, hd]
  | charged k now amount => simp [posting, creditOf, chargedFor]
  | _ => rfl

/-! ### Replies on their way -/

/-- What a reply on its way holds for account `k`. -/
def Lease.repliedTo (win : FixedWindow.Config) (k : String × ℚ) (lease : Lease) : ℚ :=
  match lease.stage with
  | .replied d =>
    if d.allowed ∧ (lease.key, startOf win.windowMs lease.now) = k then lease.amount else 0
  | _ => 0

/-- What all replies on their way hold for account `k`. -/
def inFlight (win : FixedWindow.Config) (leases : List Lease) (k : String × ℚ) : ℚ :=
  (leases.map (Lease.repliedTo win k)).sum

section InFlight

variable {win : FixedWindow.Config} {leases : List Lease} {k : String × ℚ}

theorem repliedTo_of_settled (lease : Lease) (h : lease.stage.settled = true) :
    lease.repliedTo win k = 0 := by
  unfold Lease.repliedTo
  split
  · rename_i hst
    simp [hst, Stage.settled] at h
  · rfl

theorem repliedTo_requested {lease : Lease} (h : lease.stage = .requested) :
    lease.repliedTo win k = 0 := by
  simp [Lease.repliedTo, h]

theorem inFlight_append (lease : Lease) :
    inFlight win (leases ++ [lease]) k = inFlight win leases k + lease.repliedTo win k := by
  simp [inFlight]

theorem inFlight_set {l : ℕ} {lease : Lease} (lease' : Lease) (hl : leases[l]? = some lease) :
    inFlight win (leases.set l lease') k
      = inFlight win leases k - lease.repliedTo win k + lease'.repliedTo win k := by
  obtain ⟨hlt, hget⟩ := List.getElem?_eq_some_iff.mp hl
  rw [inFlight, List.map_set, List.sum_set', dif_pos (by simpa using hlt), List.getElem_map, hget,
    inFlight]
  ring

theorem repliedTo_nonneg {lease : Lease} (h : 0 ≤ lease.amount) : 0 ≤ lease.repliedTo win k := by
  unfold Lease.repliedTo
  split
  · split
    · exact h
    · exact le_rfl
  · exact le_rfl

theorem inFlight_nonneg (h : ∀ lease ∈ leases, 0 ≤ lease.amount) : 0 ≤ inFlight win leases k := by
  refine List.sum_nonneg fun x hx => ?_
  obtain ⟨lease, hmem, rfl⟩ := List.mem_map.mp hx
  exact repliedTo_nonneg (h lease hmem)

end InFlight

omit [Rounding] in
theorem le_leaseSizeFor (cfg : Config Sizer) (e : Entry Sizer) : 1 ≤ leaseSizeFor cfg e := by
  unfold leaseSizeFor
  split
  · exact le_max_left _ _
  · exact cfg.one_le_batch

/-! ### The store keeps every window within the limit -/

/-- The store does not round the count it computes for the lease of a step. -/
def CountsPlainly (win : FixedWindow.Config) (s : Parties ι L2 (Node Sizer)) (a : ι × Act) : Prop :=
  match a.2 with
  | .serve l => ∀ lease ∈ (s.party a.1).leases[l]?,
    Unrounded (FixedWindow.countIn (s.shared.read lease.key) (startOf win.windowMs lease.now)
      + lease.amount)
  | _ => True

instance CountsPlainly.decidable (win : FixedWindow.Config) (s : Parties ι L2 (Node Sizer)) :
    ∀ a, Decidable (CountsPlainly win s a)
  | (_, .serve _) => inferInstanceAs (Decidable (∀ _ ∈ _, _))
  | (_, .check _ _ _ _ _) | (_, .resume _ _ _) | (_, .lose _) | (_, .deliver _ _) | (_, .clean _)
  | (_, .reclaim _) | (_, .reset _) | (_, .serveReset _) | (_, .expire _) => isTrue trivial

omit [Rounding] in
theorem countsPlainly_exact (win : FixedWindow.Config) (s : Parties ι L2 (Node Sizer))
    (a : ι × Act) : @CountsPlainly exact _ _ win s a := by
  unfold CountsPlainly
  split
  · exact fun _ _ => unrounded_exact _
  · trivial

/-- The store applies the lease of a step in window order, and serves no reset. -/
def ServesInOrder (win : FixedWindow.Config) (s : Parties ι L2 (Node Sizer)) (a : ι × Act) : Bool :=
  match a.2 with
  | .serve l =>
    match (s.party a.1).leases[l]? with
    | some lease => FixedWindow.InOrder win s.shared lease.key lease.now
    | none => true
  | .serveReset _ => false
  | _ => true

section Step

variable {win : FixedWindow.Config} {cfg : Config Sizer} {s s' : Node Sizer} {l2 l2' : L2}
  {evs : List Event}

theorem turn_charges (id : ℕ) (key : String) (cost entered leaseNow : ℚ) (e : Entry Sizer)
    (k : String) (w : ℚ) :
    ((turn win cfg s id key cost entered leaseNow e).2.map (chargedFor win k w)).sum = 0 := by
  unfold turn
  split
  · simp [chargedFor]
  · split <;> rfl

/-- Only an applied lease charges a window. -/
theorem step_charges {a : Act} (h : step win cfg l2 s a = some (l2', s', evs)) :
    (∃ l lease d, a = .serve l ∧ s.leases[l]? = some lease ∧
      FixedWindow.applyCheck win l2 lease.key lease.now lease.amount = (l2', d) ∧
      evs = if d.allowed then [.charged lease.key lease.now lease.amount] else []) ∨
    ((l2' = l2 ∨ (∃ key, l2' = l2.expire key) ∨ ∃ i, a = .serveReset i) ∧
      ∀ key w, (evs.map (chargedFor win key w)).sum = 0) := by
  cases a with
  | check id rawKey cost now leaseNow =>
    simp only [step] at h
    split at h
    · cases h
    · obtain ⟨rfl, -, rfl⟩ : l2 = l2' ∧ _ = s' ∧ _ = evs := by simpa [Prod.ext_iff] using h
      refine .inr ⟨.inl rfl, fun key w => ?_⟩
      unfold check checkKey
      split
      · simp [chargedFor]
      · exact turn_charges _ _ _ _ _ _ _ _
  | resume id now leaseNow =>
    obtain ⟨r, hr, heq⟩ := Option.map_eq_some_iff.mp h
    cases heq
    refine .inr ⟨.inl rfl, fun key w => ?_⟩
    obtain ⟨c, hc, hr⟩ := Option.bind_eq_some_iff.mp hr
    obtain ⟨lease, hl, hr⟩ := Option.bind_eq_some_iff.mp hr
    cases hstage : lease.stage with
    | requested => simp [hstage] at hr
    | replied d => simp [hstage] at hr
    | failed =>
      simp only [hstage, Option.some.injEq] at hr
      cases hr
      simp [chargedFor]
    | delivered d =>
      simp only [hstage] at hr
      split at hr
      · cases hr
        simp [chargedFor]
      · obtain ⟨-, rfl⟩ := Prod.mk.inj (Option.some.inj hr)
        exact turn_charges _ _ _ _ _ _ _ _
  | serve l =>
    obtain ⟨lease, hl, h⟩ := Option.bind_eq_some_iff.mp h
    split at h
    · simp only [Option.some.injEq, Prod.mk.injEq] at h
      obtain ⟨rfl, -, rfl⟩ := h
      exact .inl ⟨l, lease, _, rfl, hl, rfl, rfl⟩
    · cases h
  | serveReset i =>
    obtain ⟨key, -, heq⟩ := Option.map_eq_some_iff.mp h
    cases heq
    exact .inr ⟨.inr (.inr ⟨i, rfl⟩), fun _ _ => rfl⟩
  | expire key =>
    cases h
    exact .inr ⟨.inr (.inl ⟨key, rfl⟩), fun _ _ => rfl⟩
  | reset rawKey =>
    cases h
    exact .inr ⟨.inl rfl, fun _ _ => rfl⟩
  | lose l =>
    obtain ⟨r, -, heq⟩ := Option.map_eq_some_iff.mp h
    cases heq
    exact .inr ⟨.inl rfl, fun _ _ => rfl⟩
  | deliver l now =>
    obtain ⟨r, -, heq⟩ := Option.map_eq_some_iff.mp h
    cases heq
    exact .inr ⟨.inl rfl, fun _ _ => rfl⟩
  | clean l =>
    obtain ⟨r, -, heq⟩ := Option.map_eq_some_iff.mp h
    cases heq
    exact .inr ⟨.inl rfl, fun _ _ => rfl⟩
  | reclaim now =>
    obtain ⟨r, -, heq⟩ := Option.map_eq_some_iff.mp h
    cases heq
    exact .inr ⟨.inl rfl, fun _ _ => rfl⟩

end Step

section Fleet

variable [DecidableEq ι] {win : FixedWindow.Config} {cfg : ι → Config Sizer}

omit [DecidableEq ι] in
theorem totalCharged_append_own (key : String) (w : ℚ) (log : List (ι × Event)) (i : ι)
    (evs : List Event) :
    totalCharged win key w ((log ++ evs.map fun e => (i, e)).map Prod.snd)
      = totalCharged win key w (log.map Prod.snd) + (evs.map (chargedFor win key w)).sum := by
  simp [totalCharged, Function.comp_def]

/-- **No window of a key is charged more than the limit**, when the store applies the leases in
window order and rounds no count. -/
theorem totalCharged_le_limit {ok : Parties ι L2 (Node Sizer) → ι × Act → Prop}
    (hok : ∀ s a, ok s a → ServesInOrder win s a = true ∧ CountsPlainly win s a)
    {log : List (ι × Event)}
    {s : Parties ι L2 (Node Sizer)} (hrun : (fleet win cfg).Run ok (start ι) log s) (key : String)
    (w : ℚ) : totalCharged win key w (log.map Prod.snd) ≤ win.limit := by
  have hwithin : FixedWindow.WithinLimit win s.shared
      fun key w => totalCharged win key w (log.map Prod.snd) := by
    refine Parties.run_shared
      (I := fun l2 log =>
        FixedWindow.WithinLimit win l2 fun key w => totalCharged win key w (log.map Prod.snd))
      (FixedWindow.WithinLimit.empty win) ?_ hrun
    intro s i a l2 s' evs log hwithin hokstep hstep
    obtain ⟨horder, hplain⟩ := hok _ _ hokstep
    rcases step_charges hstep with ⟨l, lease, d, rfl, hl, happly, rfl⟩ | ⟨hstore, hzero⟩
    · simp only [ServesInOrder, hl] at horder
      have happlied := hwithin.apply horder (hplain lease hl) happly
      convert happlied using 3 with key w
      rw [totalCharged_append_own]
      congr 1
      cases hd : d.allowed with
      | false => simp [FixedWindow.chargeOf, hd]
      | true =>
        simp only [FixedWindow.chargeOf, hd, if_true, List.map_cons, List.map_nil, List.sum_cons,
          List.sum_nil, add_zero, chargedFor, Prod.mk.injEq, true_and, eq_comm (a := key),
          eq_comm (a := w)]
    · have hsame :
          (fun key w => totalCharged win key w ((log ++ evs.map fun e => (i, e)).map Prod.snd))
          = fun key w => totalCharged win key w (log.map Prod.snd) := by
        funext key w
        rw [totalCharged_append_own, hzero, add_zero]
      rw [hsame]
      rcases hstore with rfl | ⟨key, rfl⟩ | ⟨j, rfl⟩
      · exact hwithin
      · exact hwithin.expire key
      · cases horder
  exact hwithin.le_limit key w

end Fleet

end ThrottleKit.Leased
