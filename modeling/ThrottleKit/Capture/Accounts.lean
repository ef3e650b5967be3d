import ThrottleKit.Capture.Recorder

/-!
# What the segments of a recorder account for

Every decision of a known tenant is to be in one segment, or counted in one as dropped. A ring that
is full does count. A tenant that is evicted and a fault leave no count in any segment, and what is
left looks complete.

## Main definitions

* `Sent`, `sinceDrain` — the decisions of known tenants since the last drain
* `Accounts` — segments hold or count every decision
* `Accounted` — all segments of a run do
* `Kept` — a call that neither evicts a tenant nor meets a fault

## Main results

* `segmentsOf_segments` — a tenant and a policy have one segment at most
* `booked_step`, `not_accounts_step` — a call keeps the books exactly when it is kept
* `accounted_iff` — so does a run
* `CaptureSegment.Books.steps` — a projected trace that is not truncated has all the steps
-/

namespace ThrottleKit.Capture

/-! ### What was recorded since the last drain -/

/-- A decision of a known tenant. -/
structure Sent where
  rawScope : String
  input : RecordInput

/-- The decision that a call records, if its tenant is known. -/
def Call.sent : Call → List Sent
  | .record input =>
    match input.tenant with
    | .of rawScope => [⟨rawScope, input⟩]
    | .throws | .undefined => []
  | .register .. | .segments | .counts | .drain => []

/-- The decisions since the last drain, after one more call. -/
def sinceNext (sent : List Sent) (call : Call) : List Sent :=
  match call with
  | .drain => []
  | _ => sent ++ call.sent

/-- The decisions of known tenants since the last drain. -/
def sinceDrain (calls : List Call) : List Sent := calls.foldl sinceNext []

/-- The event of a decision, if there is an instant for it. -/
def Sent.event (dg : Digests) (mode : RedactionMode) (x : Sent) : Option CaptureEvent :=
  x.input.at?.map fun instant =>
    ⟨deriveRef dg mode x.input.key, x.input.cost, instant, x.input.decision⟩

/-- The events of a tenant, under its ref, and a policy. -/
def sentTo (dg : Digests) (mode : RedactionMode) (sent : List Sent) (scope policy : String) :
    List (Option CaptureEvent) :=
  (sent.filter fun x => deriveRef dg mode x.rawScope = scope ∧ x.input.policy = policy).map
    (Sent.event dg mode)

/-- The segments of a tenant and a policy. -/
def segmentsOf (segs : List CaptureSegment) (scope policy : String) : List CaptureSegment :=
  segs.filter fun g => g.scope = scope ∧ g.policy = policy

/-- A segment accounts for decisions: it holds the first of them in order, and counts the others. -/
structure CaptureSegment.Books (g : CaptureSegment) (sent : List (Option CaptureEvent)) : Prop where
  events : g.events.map some <+: sent
  count : g.count = g.events.length
  total : g.events.length + g.dropped = sent.length
  whole : g.dropped = 0 → g.events.map some = sent

/-- Segments account for decisions: those of a tenant and a policy are all accounted for by the one
segment there is for them. -/
def Accounts (dg : Digests) (mode : RedactionMode) (segs : List CaptureSegment) (sent : List Sent) :
    Prop :=
  ∀ scope policy,
    (sentTo dg mode sent scope policy = [] → segmentsOf segs scope policy = []) ∧
    (sentTo dg mode sent scope policy ≠ [] → ∃ g, segmentsOf segs scope policy = [g] ∧
      g.Books (sentTo dg mode sent scope policy))

/-- After every call of a run, the segments that are held account for what was recorded since the
last drain; and so do the segments that are drained. -/
structure Accounted (dg : Digests) (cfg : CaptureConfig) (calls : List Call) : Prop where
  held : ∀ pre, pre <+: calls →
    Accounts dg cfg.mode (segments cfg (Lockstep.after (recorder dg cfg) start pre))
      (sinceDrain pre)
  drained : ∀ pre segs, pre ++ [.drain] <+: calls →
    (recorder dg cfg (Lockstep.after (recorder dg cfg) start pre) .drain).2 = .segments segs →
      Accounts dg cfg.mode segs (sinceDrain pre)

/-- A decision meets no fault: neither ref collides, and there is an instant for it. -/
def Faultless (dg : Digests) (mode : RedactionMode) (seen : Guard) (x : Sent) : Prop :=
  ∃ r ∈ redact dg mode seen x.rawScope,
    (redact dg mode r.1 x.input.key).isSome ∧ x.input.at?.isSome

/-- There is room for a tenant: its rings are held, or the cap is not reached, or nothing is held.
-/
def Room (maxScopes : ℕ) (scopes : Scopes) (scope : String) : Prop :=
  (scopes.lookup scope).isSome ∨ scopes.size < maxScopes ∨ scopes.size = 0

/-- What a call records meets no fault and evicts no tenant. -/
def Kept (dg : Digests) (cfg : CaptureConfig) (s : State) (call : Call) : Prop :=
  ∀ x ∈ call.sent, Faultless dg cfg.mode s.seen x ∧
    Room cfg.maxScopes s.scopes (deriveRef dg cfg.mode x.rawScope)

instance (dg : Digests) (mode : RedactionMode) (seen : Guard) (x : Sent) :
    Decidable (Faultless dg mode seen x) :=
  inferInstanceAs (Decidable (∃ r ∈ redact dg mode seen x.rawScope, _))

instance (maxScopes : ℕ) (scopes : Scopes) (scope : String) :
    Decidable (Room maxScopes scopes scope) := inferInstanceAs (Decidable (_ ∨ _ ∨ _))

instance (dg : Digests) (cfg : CaptureConfig) (s : State) (call : Call) :
    Decidable (Kept dg cfg s call) := inferInstanceAs (Decidable (∀ x ∈ call.sent, _ ∧ _))

/-! ### Rings -/

/-- The ring of a tenant and a policy. -/
def ringAt (scopes : Scopes) (scope policy : String) : Option Ring :=
  (scopes.lookup scope).bind fun policyMap => policyMap.lookup policy

/-- Every ring stands under its tenant and policy, and every tenant has one. -/
structure Keyed (scopes : Scopes) : Prop where
  ring : ∀ scope policy r, ringAt scopes scope policy = some r → r.scope = scope ∧ r.policy = policy
  nonempty : ∀ scope policyMap, scopes.lookup scope = some policyMap →
    ∃ policy r, policyMap.lookup policy = some r

variable {dg : Digests} {cfg : CaptureConfig} {s : State} {scopes : Scopes}

/-- **A tenant and a policy have one segment at most**, that of their ring. -/
theorem segmentsOf_segments (h : Keyed s.scopes) (scope policy : String) :
    segmentsOf (segments cfg s) scope policy
      = ((ringAt s.scopes scope policy).map
          (buildSegment cfg (s.metas.lookup policy))).toList := by
  -- the segments that a tenant's rings contribute
  have hinner : ∀ scope' policyMap, s.scopes.lookup scope' = some policyMap → ∀ p r,
      policyMap.lookup p = some r → r.scope = scope' ∧ r.policy = p := by
    intro scope' policyMap hscope p r hr
    refine h.ring scope' p r ?_
    rw [ringAt, hscope, Option.bind_some, hr]
  rw [segmentsOf, segments, List.filter_flatMap, OrderedMap.flatMap_entries_eq (k := scope), ringAt]
  · cases hscope : s.scopes.lookup scope with
    | none => rfl
    | some policyMap =>
      rw [Option.map_some, Option.getD_some, Option.bind_some, List.map_eq_flatMap,
        List.filter_flatMap, OrderedMap.flatMap_entries_eq (k := policy)]
      · cases hpolicy : policyMap.lookup policy with
        | none => rfl
        | some r =>
          obtain ⟨hscope', hpolicy'⟩ := hinner scope policyMap hscope policy r hpolicy
          rw [Option.map_some, Option.getD_some, Option.map_some,
            List.filter_cons_of_pos (by simp [buildSegment, hscope', hpolicy']), hpolicy']
          rfl
      · intro p r hr hne
        obtain ⟨-, hpolicy'⟩ := hinner scope policyMap hscope p r hr
        exact List.filter_cons_of_neg (by simp [buildSegment, hpolicy', hne])
  · intro scope' policyMap hscope hne
    refine List.filter_eq_nil_iff.mpr fun g hg => ?_
    obtain ⟨e, he, rfl⟩ := List.mem_map.mp hg
    obtain ⟨hscope', -⟩ := hinner scope' policyMap hscope e.1 e.2
      (OrderedMap.lookup_of_mem_entries he)
    simp [buildSegment, hscope', hne]

/-! ### The books -/

/-- A ring books events: the first of them up to its depth, and how many others. -/
structure Ring.Books (ringSize : ℕ) (ring : Ring) (sent : List (Option CaptureEvent)) : Prop where
  nonempty : sent ≠ []
  events : ring.events.map some = sent.take ringSize
  dropped : ring.dropped = sent.length - ringSize

/-- The rings book what was recorded. -/
structure Booked (dg : Digests) (cfg : CaptureConfig) (scopes : Scopes) (sent : List Sent) :
    Prop where
  keyed : Keyed scopes
  none_of : ∀ scope policy, ringAt scopes scope policy = none →
    sentTo dg cfg.mode sent scope policy = []
  books : ∀ scope policy r, ringAt scopes scope policy = some r →
    r.Books cfg.ringSize (sentTo dg cfg.mode sent scope policy)

/-- A segment of a ring accounts for what the ring books. -/
theorem books_buildSegment {ringSize : ℕ} {ring : Ring} {sent : List (Option CaptureEvent)}
    (h : ring.Books ringSize sent) (info : Option StoredMeta) :
    (buildSegment cfg info ring).Books sent := by
  have hlength : ring.events.length = min ringSize sent.length := by
    rw [← List.length_map (f := some), h.events, List.length_take]
  refine ⟨?_, rfl, ?_, fun hdropped => ?_⟩
  · show ring.events.map some <+: sent
    rw [h.events]
    exact List.take_prefix ringSize sent
  · show ring.events.length + ring.dropped = sent.length
    rw [hlength, h.dropped]
    omega
  · have hzero : sent.length - ringSize = 0 := h.dropped.symm.trans hdropped
    show ring.events.map some = sent
    rw [h.events]
    exact List.take_of_length_le (by omega)

/-- **Booked rings have segments that account for what was recorded.** -/
theorem Booked.accounts {sent : List Sent} (h : Booked dg cfg s.scopes sent) :
    Accounts dg cfg.mode (segments cfg s) sent := by
  intro scope policy
  rw [segmentsOf_segments h.keyed]
  cases hring : ringAt s.scopes scope policy with
  | none => exact ⟨fun _ => rfl, fun hne => absurd (h.none_of scope policy hring) hne⟩
  | some r =>
    have hbooks := h.books scope policy r hring
    exact ⟨fun hnil => absurd hnil hbooks.nonempty, fun _ => ⟨_, rfl, books_buildSegment hbooks _⟩⟩

/-- One more event is booked. -/
theorem Ring.Books.push {ringSize : ℕ} {ring : Ring} {sent : List (Option CaptureEvent)}
    (h : ring.Books ringSize sent) (e : CaptureEvent) :
    (ring.push ringSize e).Books ringSize (sent ++ [some e]) := by
  have hlength : ring.events.length = min ringSize sent.length := by
    rw [← List.length_map (f := some), h.events, List.length_take]
  have hne : sent ++ [some e] ≠ [] := by simp
  by_cases hfull : ringSize ≤ ring.events.length
  · rw [Ring.push, if_pos hfull]
    refine ⟨hne, ?_, ?_⟩
    · rw [List.take_append_of_le_length (by omega)]
      exact h.events
    · show ring.dropped + 1 = _
      rw [h.dropped, List.length_append, List.length_singleton]
      omega
  · rw [Ring.push, if_neg hfull]
    have hall : sent.take ringSize = sent := List.take_of_length_le (by omega)
    refine ⟨hne, ?_, ?_⟩
    · show (ring.events ++ [e]).map some = _
      rw [List.map_append, h.events, hall, List.take_of_length_le]
      · rfl
      · rw [List.length_append, List.length_singleton]
        omega
    · show ring.dropped = _
      rw [h.dropped, List.length_append, List.length_singleton]
      omega

/-- The first event of a ring is booked. -/
theorem books_push_new (ringSize : ℕ) (scope policy : String) (createdAt : ℚ) (e : CaptureEvent) :
    ((⟨scope, policy, createdAt, [], 0⟩ : Ring).push ringSize e).Books ringSize [some e] := by
  rw [Ring.push]
  split
  · rename_i hfull
    have hzero : ringSize = 0 := Nat.le_zero.mp hfull
    subst hzero
    exact ⟨List.cons_ne_nil _ _, rfl, rfl⟩
  · rename_i hroom
    obtain ⟨n, rfl⟩ := Nat.exists_eq_succ_of_ne_zero fun hzero => hroom (Nat.le_zero.mpr hzero)
    refine ⟨List.cons_ne_nil _ _, (List.take_of_length_le ?_).symm, ?_⟩
    · exact Nat.le_add_left 1 n
    · show 0 = 1 - (n + 1)
      omega

/-! ### Placing an event -/

variable {scope policy : String} {e : CaptureEvent}

/-- The ring that an event goes into. -/
def ringFor (scopes : Scopes) (scope policy : String) (e : CaptureEvent) : Ring :=
  (ringAt scopes scope policy).getD ⟨scope, policy, e.instant, [], 0⟩

theorem lookup_place_self : (place cfg scopes scope policy e).lookup scope
    = some (((scopes.lookup scope).getD .empty).set policy
        ((ringFor scopes scope policy e).push cfg.ringSize e)) := by
  rw [place, ringFor, ringAt]
  cases hscope : scopes.lookup scope with
  | some policyMap =>
    dsimp only
    rw [hscope, Option.getD_some, Option.bind_some, OrderedMap.lookup_set_self]
  | none =>
    dsimp only
    rw [OrderedMap.lookup_set_self, Option.getD_none, OrderedMap.lookup_set_self, Option.getD_some,
      OrderedMap.lookup_empty, Option.bind_none]

theorem lookup_place_of_held (h : (scopes.lookup scope).isSome) {scope' : String}
    (hne : scope ≠ scope') :
    (place cfg scopes scope policy e).lookup scope' = scopes.lookup scope' := by
  obtain ⟨policyMap, hscope⟩ := Option.isSome_iff_exists.mp h
  rw [place, hscope]
  dsimp only
  rw [OrderedMap.lookup_set_of_ne _ _ hne]

theorem lookup_place_of_new (h : scopes.lookup scope = none) {scope' : String}
    (hne : scope ≠ scope') : (place cfg scopes scope policy e).lookup scope'
      = (evictOldest cfg.maxScopes scopes).lookup scope' := by
  rw [place, h]
  dsimp only
  rw [OrderedMap.lookup_set_of_ne _ _ hne, OrderedMap.lookup_set_of_ne _ _ hne]

theorem evictOldest_of_room (h : Room cfg.maxScopes scopes scope)
    (hnone : scopes.lookup scope = none) : evictOldest cfg.maxScopes scopes = scopes := by
  rw [Room, hnone] at h
  rw [evictOldest]
  split
  · rename_i hfull
    rcases h with hheld | hlt | hzero
    · cases hheld
    · omega
    · have hentries : scopes.entries = [] := List.length_eq_zero_iff.mp hzero
      rw [OrderedMap.oldest?, OrderedMap.keys, hentries]
      rfl
  · rfl

/-- **With room for the tenant**, one ring changes. -/
theorem ringAt_place (h : Room cfg.maxScopes scopes scope) (scope' policy' : String) :
    ringAt (place cfg scopes scope policy e) scope' policy'
      = if scope = scope' ∧ policy = policy' then
          some ((ringFor scopes scope policy e).push cfg.ringSize e)
        else ringAt scopes scope' policy' := by
  by_cases hscope : scope = scope'
  · subst hscope
    rw [ringAt, lookup_place_self, Option.bind_some, OrderedMap.lookup_set]
    by_cases hpolicy : policy = policy'
    · rw [if_pos hpolicy, if_pos ⟨rfl, hpolicy⟩]
    · rw [if_neg hpolicy, if_neg fun hboth => hpolicy hboth.2, ringAt]
      cases scopes.lookup scope <;> rfl
  · rw [if_neg fun hboth => hscope hboth.1, ringAt, ringAt]
    cases hheld : scopes.lookup scope with
    | some policyMap => rw [lookup_place_of_held (by rw [hheld]; rfl) hscope]
    | none => rw [lookup_place_of_new hheld hscope, evictOldest_of_room h hheld]

/-- What is evicted is not held any more; everything else is. -/
theorem lookup_evictOldest (maxScopes : ℕ) (scopes : Scopes) (scope' : String) :
    (evictOldest maxScopes scopes).lookup scope' = none ∨
      (evictOldest maxScopes scopes).lookup scope' = scopes.lookup scope' := by
  rw [evictOldest]
  split
  · cases scopes.oldest? with
    | none => exact .inr rfl
    | some oldest =>
      dsimp only
      rw [OrderedMap.lookup_erase]
      split
      · exact .inl rfl
      · exact .inr rfl
  · exact .inr rfl

/-- **Without room**, a tenant that was held is not. -/
theorem exists_evicted (h : ¬ Room cfg.maxScopes scopes scope) :
    ∃ evicted policyMap, scopes.lookup evicted = some policyMap ∧
      (place cfg scopes scope policy e).lookup evicted = none := by
  rw [Room, not_or, not_or, Bool.not_eq_true, Option.isSome_eq_false_iff,
    Option.isNone_iff_eq_none] at h
  obtain ⟨hscope, hfull, hsize⟩ := h
  obtain ⟨first, rest, hentries⟩ := List.exists_cons_of_ne_nil fun hnil =>
    hsize (List.length_eq_zero_iff.mpr hnil)
  have holdest : scopes.oldest? = some first.1 := by
    rw [OrderedMap.oldest?, OrderedMap.keys, hentries]
    rfl
  have hfirst : scopes.lookup first.1 = some first.2 := by
    refine OrderedMap.lookup_of_mem_entries ?_
    rw [hentries]
    exact List.mem_cons_self
  have hne : scope ≠ first.1 := by
    rintro rfl
    rw [hscope] at hfirst
    cases hfirst
  refine ⟨first.1, first.2, hfirst, ?_⟩
  rw [lookup_place_of_new hscope hne, evictOldest, if_pos (not_lt.mp hfull), holdest]
  exact OrderedMap.lookup_erase_self ..

theorem ringFor_keyed (h : Keyed scopes) (scope policy : String) (e : CaptureEvent) :
    (ringFor scopes scope policy e).scope = scope ∧
      (ringFor scopes scope policy e).policy = policy := by
  rw [ringFor]
  cases hring : ringAt scopes scope policy with
  | none => exact ⟨rfl, rfl⟩
  | some r => exact h.ring scope policy r hring

theorem Ring.push_keyed (ringSize : ℕ) (ring : Ring) (e : CaptureEvent) :
    (ring.push ringSize e).scope = ring.scope ∧ (ring.push ringSize e).policy = ring.policy := by
  rw [Ring.push]
  split <;> exact ⟨rfl, rfl⟩

/-- Placing an event keeps every ring under its tenant and policy. -/
theorem Keyed.place (h : Keyed scopes) : Keyed (place cfg scopes scope policy e) := by
  have hother : ∀ scope' policyMap, scope ≠ scope' →
      (Capture.place cfg scopes scope policy e).lookup scope' = some policyMap →
        scopes.lookup scope' = some policyMap := by
    intro scope' policyMap hne hlookup
    cases hheld : scopes.lookup scope with
    | some _ => rwa [lookup_place_of_held (by rw [hheld]; rfl) hne] at hlookup
    | none =>
      rw [lookup_place_of_new hheld hne] at hlookup
      rcases lookup_evictOldest cfg.maxScopes scopes scope' with hgone | hkept
      · rw [hgone] at hlookup
        cases hlookup
      · rwa [hkept] at hlookup
  refine ⟨fun scope' policy' r hr => ?_, fun scope' policyMap hlookup => ?_⟩
  · by_cases hscope : scope = scope'
    · subst hscope
      rw [ringAt, lookup_place_self, Option.bind_some, OrderedMap.lookup_set] at hr
      split at hr
      · rename_i hpolicy
        obtain rfl := Option.some.inj hr
        obtain ⟨hscope', hpolicy'⟩ := Ring.push_keyed cfg.ringSize (ringFor scopes scope policy e) e
        rw [hscope', hpolicy', ← hpolicy]
        exact ringFor_keyed h scope policy e
      · refine h.ring scope policy' r ?_
        rw [ringAt]
        cases hheld : scopes.lookup scope with
        | none =>
          rw [hheld] at hr
          cases hr
        | some policyMap =>
          rw [hheld] at hr
          exact hr
    · rw [ringAt] at hr
      obtain ⟨policyMap, hlookup, hpolicy⟩ := Option.bind_eq_some_iff.mp hr
      refine h.ring scope' policy' r ?_
      rw [ringAt, hother scope' policyMap hscope hlookup, Option.bind_some, hpolicy]
  · by_cases hscope : scope = scope'
    · subst hscope
      rw [lookup_place_self] at hlookup
      obtain rfl := Option.some.inj hlookup
      exact ⟨policy, _, OrderedMap.lookup_set_self ..⟩
    · exact h.nonempty scope' policyMap (hother scope' policyMap hscope hlookup)

/-! ### One call -/

variable {sent : List Sent} {x : Sent}

theorem sentTo_append (scope policy : String) :
    sentTo dg cfg.mode (sent ++ [x]) scope policy = sentTo dg cfg.mode sent scope policy ++
      if deriveRef dg cfg.mode x.rawScope = scope ∧ x.input.policy = policy then
        [x.event dg cfg.mode]
      else [] := by
  rw [sentTo, List.filter_append, List.map_append]
  congr 1
  split
  · rename_i hboth
    rw [List.filter_cons_of_pos (by simpa using hboth)]
    rfl
  · rename_i hnot
    rw [List.filter_cons_of_neg (by simpa using hnot)]
    rfl

/-- A decision that is placed with room is booked. -/
theorem Booked.place (h : Booked dg cfg scopes sent)
    (hevent : x.event dg cfg.mode = some e)
    (hroom : Room cfg.maxScopes scopes (deriveRef dg cfg.mode x.rawScope)) :
    Booked dg cfg (place cfg scopes (deriveRef dg cfg.mode x.rawScope) x.input.policy e)
      (sent ++ [x]) := by
  refine ⟨h.keyed.place, fun scope policy hnone => ?_, fun scope policy r hr => ?_⟩
  · rw [ringAt_place hroom] at hnone
    rw [sentTo_append]
    split at hnone
    · cases hnone
    · rename_i hother
      rw [if_neg hother, List.append_nil]
      exact h.none_of scope policy hnone
  · rw [ringAt_place hroom] at hr
    rw [sentTo_append]
    split at hr
    · rename_i hboth
      obtain ⟨rfl, rfl⟩ := hboth
      obtain rfl := Option.some.inj hr
      rw [if_pos ⟨rfl, rfl⟩, hevent, ringFor]
      cases hring : ringAt scopes (deriveRef dg cfg.mode x.rawScope) x.input.policy with
      | some ring => exact (h.books _ _ ring hring).push e
      | none =>
        rw [h.none_of _ _ hring]
        exact books_push_new cfg.ringSize _ _ _ e
    · rename_i hother
      rw [if_neg hother, List.append_nil]
      exact h.books scope policy r hr

/-- Segments that account for what was recorded do not account for one more decision. -/
theorem Accounts.not_append {segs : List CaptureSegment} (h : Accounts dg cfg.mode segs sent)
    (x : Sent) : ¬ Accounts dg cfg.mode segs (sent ++ [x]) := by
  intro hmore
  obtain ⟨hnil, hone⟩ := h (deriveRef dg cfg.mode x.rawScope) x.input.policy
  obtain ⟨-, hone'⟩ := hmore (deriveRef dg cfg.mode x.rawScope) x.input.policy
  rw [sentTo_append, if_pos ⟨rfl, rfl⟩] at hone'
  obtain ⟨g, hg, hbooks⟩ := hone' (by simp)
  by_cases hempty : sentTo dg cfg.mode sent (deriveRef dg cfg.mode x.rawScope) x.input.policy = []
  · rw [hnil hempty] at hg
    cases hg
  · obtain ⟨g', hg', hbooks'⟩ := hone hempty
    rw [hg'] at hg
    obtain rfl := List.head_eq_of_cons_eq hg
    have htotal := hbooks.total
    rw [hbooks'.total, List.length_append, List.length_singleton] at htotal
    omega

/-- A tenant that is evicted leaves decisions without a segment. -/
theorem not_accounts_place (h : Booked dg cfg s.scopes sent)
    (hroom : ¬ Room cfg.maxScopes s.scopes scope) (metas : OrderedMap String StoredMeta)
    (tallies : OrderedMap String (ℕ × ℕ)) (seen : Guard) :
    ¬ Accounts dg cfg.mode
      (segments cfg ⟨metas, tallies, place cfg s.scopes scope policy e, seen⟩) (sent ++ [x]) := by
  intro haccounts
  obtain ⟨evicted, policyMap, hheld, hgone⟩ := @exists_evicted _ _ _ policy e hroom
  obtain ⟨policy', r, hr⟩ := h.keyed.nonempty evicted policyMap hheld
  have hring : ringAt s.scopes evicted policy' = some r := by
    rw [ringAt, hheld, Option.bind_some, hr]
  obtain ⟨-, hone⟩ := haccounts evicted policy'
  have hsent : sentTo dg cfg.mode (sent ++ [x]) evicted policy' ≠ [] := by
    rw [sentTo_append]
    exact List.append_ne_nil_of_left_ne_nil (h.books _ _ r hring).nonempty _
  obtain ⟨g, hg, -⟩ := hone hsent
  rw [segmentsOf_segments h.keyed.place, ringAt, hgone] at hg
  cases hg

/-- What a call of a known tenant does. -/
theorem record_cases (hscoped : cfg.countsOnly = false) {input : RecordInput} {rawScope : String}
    (htenant : input.tenant = .of rawScope) :
    (¬ Faultless dg cfg.mode s.seen ⟨rawScope, input⟩ ∧
      (record dg cfg s input).scopes = s.scopes ∧ (record dg cfg s input).metas = s.metas) ∨
    ∃ e, (⟨rawScope, input⟩ : Sent).event dg cfg.mode = some e ∧
      Faultless dg cfg.mode s.seen ⟨rawScope, input⟩ ∧ ∃ tallies seen, record dg cfg s input
        = ⟨s.metas, tallies, place cfg s.scopes (deriveRef dg cfg.mode rawScope) input.policy e,
          seen⟩ := by
  cases hscope : redact dg cfg.mode s.seen rawScope with
  | none =>
    have hrecord : record dg cfg s input
        = { s with tallies := tally s.tallies input.policy input.decision.allowed } := by
      simp only [record, hscoped, htenant, hscope, Bool.false_eq_true, if_false]
    rw [hrecord]
    refine .inl ⟨?_, rfl, rfl⟩
    rintro ⟨r, hr, -⟩
    rw [Option.mem_def, hscope] at hr
    cases hr
  | some r =>
    obtain ⟨seen, scope⟩ := r
    obtain rfl := redact_ref hscope
    cases hkey : redact dg cfg.mode seen input.key with
    | none =>
      have hrecord : record dg cfg s input = { s with
          tallies := tally s.tallies input.policy input.decision.allowed
          seen := seen } := by
        simp only [record, hscoped, htenant, hscope, hkey, Bool.false_eq_true, if_false]
      rw [hrecord]
      refine .inl ⟨?_, rfl, rfl⟩
      rintro ⟨r, hr, hsome, -⟩
      rw [Option.mem_def, hscope] at hr
      obtain rfl := Option.some.inj hr
      rw [hkey] at hsome
      cases hsome
    | some r' =>
      obtain ⟨seen', keyRef⟩ := r'
      obtain rfl := redact_ref hkey
      cases hat : input.at? with
      | none =>
        have hrecord : record dg cfg s input = { s with
            tallies := tally s.tallies input.policy input.decision.allowed
            seen := seen' } := by
          simp only [record, hscoped, htenant, hscope, hkey, hat, Bool.false_eq_true, if_false]
        rw [hrecord]
        refine .inl ⟨?_, rfl, rfl⟩
        rintro ⟨r, -, -, hsome⟩
        rw [hat] at hsome
        cases hsome
      | some instant =>
        have hrecord : record dg cfg s input = ⟨s.metas,
            tally s.tallies input.policy input.decision.allowed,
            place cfg s.scopes (deriveRef dg cfg.mode rawScope) input.policy
              ⟨deriveRef dg cfg.mode input.key, input.cost, instant, input.decision⟩, seen'⟩ := by
          simp only [record, hscoped, htenant, hscope, hkey, hat, Bool.false_eq_true, if_false]
        rw [hrecord]
        refine .inr ⟨_, ?_, ⟨_, hscope, ?_, ?_⟩, _, _, rfl⟩
        · rw [Sent.event, hat]
          rfl
        · rw [hkey]
          rfl
        · rw [hat]
          rfl

/-- A call that records nothing of a known tenant leaves the rings. -/
theorem scopes_of_sent_eq_nil {call : Call} (hsent : call.sent = []) (hdrain : call ≠ .drain) :
    (recorder dg cfg s call).1.scopes = s.scopes := by
  cases call with
  | register policy info =>
    rw [recorder, register]
    cases info.spec.bind CaptureSpec.keyPrefix with
    | none => rfl
    | some raw =>
      dsimp only
      cases redact dg cfg.mode s.seen raw <;> rfl
  | record input =>
    rw [recorder, record]
    cases htenant : input.tenant with
    | of rawScope =>
      rw [Call.sent, htenant] at hsent
      cases hsent
    | throws => cases cfg.countsOnly <;> rfl
    | undefined => cases cfg.countsOnly <;> rfl
  | segments => rfl
  | counts => rfl
  | drain => exact absurd rfl hdrain

/-- A call records a decision of a known tenant, or none. -/
theorem sent_cases (call : Call) : call.sent = [] ∨ ∃ input rawScope, call = .record input ∧
    input.tenant = .of rawScope ∧ call.sent = [⟨rawScope, input⟩] := by
  cases call with
  | record input =>
    cases htenant : input.tenant with
    | of rawScope => exact .inr ⟨input, rawScope, rfl, htenant, by rw [Call.sent, htenant]⟩
    | throws => exact .inl (by rw [Call.sent, htenant])
    | undefined => exact .inl (by rw [Call.sent, htenant])
  | _ => exact .inl rfl

theorem sinceNext_record (sent : List Sent) (input : RecordInput) :
    sinceNext sent (.record input) = sent ++ (Call.record input).sent := rfl

theorem booked_empty : Booked dg cfg .empty [] where
  keyed := by
    refine ⟨fun scope policy r hr => ?_, fun scope policyMap h => ?_⟩
    · cases hr
    · cases h
  none_of _ _ _ := rfl
  books _ _ _ hr := by cases hr

/-- **A call that is kept keeps the books.** -/
theorem booked_step (hscoped : cfg.countsOnly = false) (h : Booked dg cfg s.scopes sent)
    {call : Call} (hkept : Kept dg cfg s call) :
    Booked dg cfg (recorder dg cfg s call).1.scopes (sinceNext sent call) := by
  rcases sent_cases call with hnil | ⟨input, rawScope, rfl, htenant, hsent⟩
  · by_cases hdrain : call = .drain
    · subst hdrain
      exact booked_empty
    · have hnext : sinceNext sent call = sent := by
        cases call <;> first | exact absurd rfl hdrain | simp [sinceNext, hnil]
      rw [hnext, scopes_of_sent_eq_nil hnil hdrain]
      exact h
  · obtain ⟨hfaultless, hroom⟩ := hkept ⟨rawScope, input⟩ (by rw [hsent]; exact List.mem_cons_self)
    rw [sinceNext_record, hsent]
    rcases record_cases hscoped htenant with ⟨hfault, -⟩ | ⟨e, hevent, -, tallies, seen, hrecord⟩
    · exact absurd hfaultless hfault
    · show Booked dg cfg (record dg cfg s input).scopes _
      rw [hrecord]
      exact h.place hevent hroom

/-- **A call that is not kept breaks the books**: its decision, or one of the tenant that it evicts,
is in no segment and in no count. -/
theorem not_accounts_step (hscoped : cfg.countsOnly = false) (h : Booked dg cfg s.scopes sent)
    {call : Call} (hnot : ¬ Kept dg cfg s call) :
    ¬ Accounts dg cfg.mode (segments cfg (recorder dg cfg s call).1) (sinceNext sent call) := by
  rcases sent_cases call with hnil | ⟨input, rawScope, rfl, htenant, hsent⟩
  · refine absurd (fun x hx => ?_) hnot
    rw [hnil] at hx
    cases hx
  rw [sinceNext_record, hsent]
  show ¬ Accounts dg cfg.mode (segments cfg (record dg cfg s input)) _
  rcases record_cases hscoped htenant with
    ⟨-, hscopes, hmetas⟩ | ⟨e, -, hfaultless, tallies, seen, hrecord⟩
  · have hsame : segments cfg (record dg cfg s input) = segments cfg s := by
      rw [segments, hscopes, hmetas]
      rfl
    rw [hsame]
    exact h.accounts.not_append _
  · rw [hrecord]
    refine not_accounts_place h (fun hroom => hnot fun x hx => ?_) _ _ _
    rw [hsent] at hx
    obtain rfl := List.mem_singleton.mp hx
    exact ⟨hfaultless, hroom⟩

/-! ### Runs -/

/-- From booked rings, all segments of a run account for what was recorded exactly when every call
is kept. -/
theorem accounts_iff_allMet (hscoped : cfg.countsOnly = false) {calls : List Call}
    (h : Booked dg cfg s.scopes sent) :
    (∀ pre, pre <+: calls → Accounts dg cfg.mode
        (segments cfg (Lockstep.after (recorder dg cfg) s pre)) (pre.foldl sinceNext sent)) ↔
      Lockstep.AllMet (recorder dg cfg) (Kept dg cfg) s calls := by
  induction calls generalizing s sent with
  | nil =>
    refine ⟨fun _ => trivial, fun _ pre hpre => ?_⟩
    obtain rfl := List.prefix_nil.mp hpre
    exact h.accounts
  | cons call calls ih =>
    constructor
    · intro hall
      have hkept : Kept dg cfg s call := by
        by_contra hnot
        exact not_accounts_step hscoped h hnot (hall [call] ⟨calls, rfl⟩)
      refine ⟨hkept, (ih (booked_step hscoped h hkept)).mp fun pre hpre => ?_⟩
      exact hall (call :: pre) (List.cons_prefix_cons.mpr ⟨rfl, hpre⟩)
    · rintro ⟨hkept, hrest⟩ pre hpre
      cases pre with
      | nil => exact h.accounts
      | cons call' pre =>
        obtain ⟨rfl, hpre'⟩ := List.cons_prefix_cons.mp hpre
        exact (ih (booked_step hscoped h hkept)).mpr hrest pre hpre'

/-- **Every decision of a known tenant is in one segment, or counted in one, after every call of a
run and at every drain, exactly when no call evicts a tenant or meets a fault.** -/
theorem accounted_iff (dg : Digests) {cfg : CaptureConfig} (hscoped : cfg.countsOnly = false)
    (calls : List Call) :
    Accounted dg cfg calls ↔ Lockstep.AllMet (recorder dg cfg) (Kept dg cfg) start calls := by
  have hbooked : Booked dg cfg start.scopes [] := booked_empty
  have hiff := @accounts_iff_allMet dg cfg start [] hscoped calls hbooked
  rw [← hiff]
  refine ⟨Accounted.held, fun hheld => ⟨hheld, fun pre segs hpre hsegs => ?_⟩⟩
  have hdrained : segments cfg (Lockstep.after (recorder dg cfg) start pre) = segs :=
    Answer.segments.inj hsegs
  rw [← hdrained]
  exact hheld pre ((List.prefix_append pre [.drain]).trans hpre)

/-! ### Projected traces -/

/-- **A trace that is not truncated has all the steps** that its segment accounts for. -/
theorem CaptureSegment.Books.steps {g : CaptureSegment} {sent : List (Option CaptureEvent)}
    (h : g.Books sent) {t : ReplayTraceJson} (ht : projectToReplayTrace g = some t)
    (hwhole : t.truncated = false) : t.steps.map some = sent := by
  rw [projectToReplayTrace] at ht
  split at ht
  · cases ht
  split at ht
  · obtain rfl := Option.some.inj ht
    exact h.whole (Nat.eq_zero_of_not_pos (of_decide_eq_false hwhole))
  · cases ht

/-! ### Two tenants -/

/-- Digests that never collide. -/
def plainDigests : Digests := ⟨id, id, id⟩

/-- Rings of two events. -/
def ringsOfTwo (maxScopes : ℕ) : CaptureConfig := ⟨.hmac, 2, maxScopes, false, .system⟩

/-- A decision for a tenant. -/
def callFor (tenant : String) : Call :=
  .record ⟨"api", tenant ++ ":user", 1, ⟨true, 10, 9, 1000, 0⟩, none, .of tenant, some 0⟩

theorem accounted_ringsOfTwo :
    Accounted plainDigests (ringsOfTwo 2) [callFor "a", callFor "b", .segments, .drain] :=
  (accounted_iff plainDigests rfl _).mpr (by decide +kernel)

/-- **A second tenant at a cap of one**: the decision of the first is in no segment, and what is
left has dropped nothing. -/
theorem not_accounted : ¬ Accounted plainDigests (ringsOfTwo 1) [callFor "a", callFor "b"] := by
  intro h
  obtain ⟨g, hg, -⟩ := (h.held _ (List.prefix_refl _) "a" "api").2 (by decide +kernel)
  have hnone : (segmentsOf (segments (ringsOfTwo 1) (Lockstep.after
      (recorder plainDigests (ringsOfTwo 1)) start [callFor "a", callFor "b"])) "a" "api").length
        = 0 := by decide +kernel
  rw [hg] at hnone
  cases hnone

end ThrottleKit.Capture
