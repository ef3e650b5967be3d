import ThrottleKit.Federation.PostgresReconcile
import ThrottleKit.Federation.RedisCoordinator
import ThrottleKit.Federation.TestCoordinator
import ThrottleKit.Lib.Lockstep

/-!
# Three coordinators

The coordinators in memory, on Redis and on Postgres get the same calls at the same times, one after
the other. They differ in what a reconcile does that comes before the first lease of its window. In
memory it does nothing; the other two open the window and mark it, so that what is given back to it
later, after a lease, is credited in memory and nowhere else.

## Main definitions

* `Call`, `testCall`, `redisCall`, `postgresCall` — a call on each coordinator, and its reply
* `InStep` — the condition on a call
* `InSync` — the coordinators have the same page of the current window

## Main results

* `inSync_step` — a call that meets the condition gets one reply, and keeps the coordinators in sync
* `replies_agree` — so all calls of a run get
-/

namespace ThrottleKit.RedisCoordinator

open AlignedWindow Redis WindowPage
open PostgresCoordinator (Whole)

/-! ### Pages on Redis -/

/-- What a hash keeps, as the page of the window that starts at `windowStart`. -/
def Hash.page (cfg : Config) (windowStart : ℚ) (h : Hash) : Page ℚ :=
  ⟨h.budget, decide (recField cfg windowStart ∈ h.markers)⟩

/-- The page that a script at `now` works on. -/
def pageAt (cfg : Config) (k : Option (Key Hash)) (now : ℤ) : Option (Page ℚ) :=
  (current cfg k now).map (Hash.page cfg (alignedStart cfg.windowMs now))

/-- The hash is of no later window than `now`, and is there for its whole window. -/
def Lives (cfg : Config) (k : Option (Key Hash)) (now : ℤ) : Prop :=
  ∀ rec ∈ k, rec.value.expiresAt ≤ alignedStart cfg.windowMs now + cfg.windowMs ∧
    ∀ d ∈ rec.diesAt, rec.value.expiresAt ≤ (d : ℚ)

variable {cfg : Config} {k : Option (Key Hash)} {now now' : ℤ} {key : String}
  {tokens leftover : ℚ}

/-- A hash of the current window is there. -/
theorem current_eq_filter (h : Lives cfg k now) : current cfg k now
    = (k.map Key.value).filter fun h =>
        h.expiresAt = alignedStart cfg.windowMs now + cfg.windowMs := by
  cases k with
  | none => rfl
  | some rec =>
    obtain ⟨-, hdies⟩ := h rec rfl
    rw [current, Redis.read, Option.bind_some, Option.map_some]
    by_cases hlive : rec.live now = true
    · rw [if_pos hlive]
    · rw [if_neg hlive, Option.filter_none, Option.filter_some, if_neg]
      intro hexpires
      refine hlive ?_
      rw [decide_eq_true_eq] at hexpires
      unfold Key.live
      cases hd : rec.diesAt with
      | none => rfl
      | some d =>
        have hlt := lt_alignedStart_add (t := (now : ℚ)) cfg.windowMs_pos
        have hle := hdies d hd
        rw [hexpires] at hle
        exact decide_eq_true (by exact_mod_cast (hlt.trans_le hle).le)

theorem opened_pageAt (cfg : Config) (k : Option (Key Hash)) (now : ℤ) (B : ℚ) :
    opened B (pageAt cfg k now) = ⟨budgetAt cfg k now B,
      decide (recField cfg (alignedStart cfg.windowMs now) ∈ markersAt cfg k now)⟩ := by
  rw [pageAt, budgetAt, markersAt]
  cases current cfg k now <;> rfl

/-- A commit with a whole end succeeds. -/
theorem commit_of_whole (cfg : Config) (k : Option (Key Hash)) (now : ℤ) {h : Hash}
    (hend : Whole h.expiresAt) :
    ∃ d : ℤ, commit cfg k now h = (⟨h, some d⟩, true) ∧ h.expiresAt ≤ d := by
  have hwhole : Whole (max 1 (h.expiresAt - now)) := by
    rcases max_choice 1 (h.expiresAt - (now : ℚ)) with hmax | hmax
    · rw [hmax]
      exact PostgresCoordinator.whole_natCast 1
    · rw [hmax, sub_eq_add_neg, ← Int.cast_neg]
      exact hend.add (PostgresCoordinator.whole_intCast _)
  refine ⟨now + ⌊max 1 (h.expiresAt - (now : ℚ))⌋, ?_, ?_⟩
  · unfold commit
    dsimp only
    rw [pexpire, if_pos (show (⌊max 1 (h.expiresAt - (now : ℚ))⌋ : ℚ) = _ from hwhole)]
    rfl
  · push_cast
    rw [hwhole]
    have hle := le_max_right 1 (h.expiresAt - (now : ℚ))
    linarith

/-- **A lease takes from the page of the current window.** -/
theorem leaseLua_page (hend : Whole (alignedStart cfg.windowMs now + cfg.windowMs)) {B : ℚ}
    (hnonneg : 0 ≤ (take B tokens (pageAt cfg k now)).2)
    (hgranted : Whole (take B tokens (pageAt cfg k now)).2) :
    ∃ rec, (leaseLua cfg k now tokens B).key = some rec ∧
      ((leaseLua cfg k now tokens B).reply.map fun r => (r.1 : ℚ))
        = some (take B tokens (pageAt cfg k now)).2 ∧
      rec.value.expiresAt = alignedStart cfg.windowMs now + cfg.windowMs ∧
      (∀ d ∈ rec.diesAt, rec.value.expiresAt ≤ (d : ℚ)) ∧
      rec.value.page cfg (alignedStart cfg.windowMs now)
        = (take B tokens (pageAt cfg k now)).1 := by
  rw [take, opened_pageAt] at hnonneg hgranted ⊢
  obtain ⟨d, hcommit, hlives⟩ := commit_of_whole cfg k now
    (h := ⟨budgetAt cfg k now B - min tokens (budgetAt cfg k now B),
      alignedStart cfg.windowMs now + cfg.windowMs, markersAt cfg k now⟩) hend
  rw [leaseLua]
  dsimp only
  rw [hcommit, if_pos rfl]
  refine ⟨_, rfl, ?_, rfl, fun d' hd' => ?_, rfl⟩
  · rw [Option.map_some, luaInteger, if_pos hnonneg]
    exact congrArg some hgranted
  · obtain rfl := Option.some.inj hd'
    exact hlives

/-- **A reconcile of the current window gives back to its page**, which it opens, unless a hash of
an earlier window has its mark. -/
theorem reconcileLua_page (hend : Whole (alignedStart cfg.windowMs now + cfg.windowMs)) {B : ℚ}
    (hlives : Lives cfg k now)
    (hmarks : ∀ h ∈ read k now, recField cfg (alignedStart cfg.windowMs now) ∈ h.markers →
      h.expiresAt = alignedStart cfg.windowMs now + cfg.windowMs) :
    ∃ rec, (reconcileLua cfg k now leftover (alignedStart cfg.windowMs now) B).key = some rec ∧
      (reconcileLua cfg k now leftover (alignedStart cfg.windowMs now) B).reply.isSome ∧
      rec.value.expiresAt = alignedStart cfg.windowMs now + cfg.windowMs ∧
      (∀ d ∈ rec.diesAt, rec.value.expiresAt ≤ (d : ℚ)) ∧
      some (rec.value.page cfg (alignedStart cfg.windowMs now))
        = giveBackOpening B leftover (pageAt cfg k now) := by
  rw [giveBackOpening, opened_pageAt, reconcileLua, if_neg (not_not.mpr rfl)]
  by_cases hmarked : ((read k now).any fun h =>
      recField cfg (alignedStart cfg.windowMs now) ∈ h.markers) = true
  · -- the mark is in the hash of the current window
    obtain ⟨h, hread, hmem⟩ := (Option.any_eq_true _ _).mp hmarked
    have hmem' := of_decide_eq_true hmem
    have hexpires := hmarks h hread hmem'
    have hcurrent : current cfg k now = some h := by
      rw [current, hread, Option.filter_some, if_pos (decide_eq_true hexpires)]
    obtain ⟨rec, hrec, -, rfl⟩ := read_eq_some hread
    rw [if_pos hmarked]
    refine ⟨rec, hrec, rfl, hexpires, (hlives rec hrec).2, ?_⟩
    have hmarkers : recField cfg (alignedStart cfg.windowMs now) ∈ markersAt cfg k now := by
      rw [markersAt, hcurrent]
      exact hmem'
    rw [Page.credit, if_pos (decide_eq_true hmarkers), Hash.page, budgetAt, hcurrent,
      decide_eq_true hmem', decide_eq_true hmarkers]
  · have hmarkers : recField cfg (alignedStart cfg.windowMs now) ∉ markersAt cfg k now := by
      intro hmem
      rw [markersAt] at hmem
      cases hcurrent : current cfg k now with
      | none =>
        rw [hcurrent] at hmem
        cases hmem
      | some h =>
        rw [hcurrent] at hmem
        refine hmarked ((Option.any_eq_true _ _).mpr ⟨h, ?_, decide_eq_true hmem⟩)
        exact (Option.filter_eq_some_iff.mp hcurrent).1
    obtain ⟨d, hcommit, hle⟩ := commit_of_whole cfg k now
      (h := ⟨min B (budgetAt cfg k now B + leftover),
        alignedStart cfg.windowMs now + cfg.windowMs,
        markersAt cfg k now ++ [recField cfg (alignedStart cfg.windowMs now)]⟩) hend
    rw [if_neg hmarked]
    dsimp only
    rw [hcommit, if_pos rfl, decide_eq_false hmarkers]
    refine ⟨_, rfl, rfl, rfl, fun d' hd' => ?_, ?_⟩
    · obtain rfl := Option.some.inj hd'
      exact hle
    · rw [Hash.page, decide_eq_true (List.mem_append_right _ List.mem_cons_self)]
      rfl

end ThrottleKit.RedisCoordinator

namespace ThrottleKit.CoordinatorsAgree

open AlignedWindow Lockstep Redis WindowPage
open PostgresCoordinator (Row Whole)
open RedisCoordinator (Config Hash recField current)
open TestCoordinator (Coordinator)

/-! ### Calls -/

/-- A call for one key, with whole amounts. -/
inductive Call
  | lease (tokens : ℕ)
  | reconcile (leftover : ℕ) (windowStart : ℚ)

/-- The amount of a call. -/
def Call.amount : Call → ℕ
  | .lease tokens => tokens
  | .reconcile leftover _ => leftover

/-- A call, and the clock when it runs. -/
structure Timed where
  now : ℤ
  call : Call

/-- What a call returns or throws. -/
inductive Reply
  | granted (tokens : ℚ)
  | reconciled
  | threw
deriving DecidableEq

variable (cfg : Config) (key : String)

/-- A `TestCoordinator` of the same window and budgets. -/
def newTest : Coordinator := ⟨true, cfg.budgetFor, some cfg.windowMs, fun _ => none⟩

/-- A `PostgresCoordinator` of the same window and budgets. -/
def postgresConfig : PostgresCoordinator.Config :=
  ⟨cfg.windowMs, cfg.budgetFor, cfg.one_le_windowMs, cfg.one_le_budget⟩

/-- A call of the `TestCoordinator`: a lease is made with the end of the window of `now`. -/
def testCall : Service Coordinator Timed Reply := fun c t =>
  match t.call with
  | .lease tokens =>
    let r := TestCoordinator.lease c key tokens (alignedStart cfg.windowMs t.now + cfg.windowMs)
    (r.1, match r.2 with
      | .ok granted => .granted granted
      | .error _ => .threw)
  | .reconcile leftover windowStart =>
    let r := TestCoordinator.reconcile c key leftover windowStart
    (r.1, match r.2 with
      | .ok _ => .reconciled
      | .error _ => .threw)

/-- A call of the `RedisCoordinator`, on the hash of the key. -/
def redisCall : Service (Option (Key Hash)) Timed Reply := fun k t =>
  match t.call with
  | .lease tokens =>
    if tokens = 0 then (k, .granted 0)
    else
      let out := RedisCoordinator.leaseLua cfg k t.now tokens (cfg.budgetFor key)
      (out.key, match out.reply with
        | some r => .granted r.1
        | none => .threw)
  | .reconcile leftover windowStart =>
    if leftover = 0 then (k, .reconciled)
    else
      let out := RedisCoordinator.reconcileLua cfg k t.now leftover windowStart (cfg.budgetFor key)
      (out.key, if out.reply.isSome then .reconciled else .threw)

/-- A call of the `PostgresCoordinator`, on the row of the key. -/
def postgresCall : Service (Option Row) Timed Reply := fun row t =>
  match t.call with
  | .lease tokens =>
    let r := PostgresCoordinator.lease (postgresConfig cfg) row key tokens t.now
    (r.1, match r.2 with
      | some granted => .granted granted
      | none => .threw)
  | .reconcile leftover windowStart =>
    let r := PostgresCoordinator.reconcile (postgresConfig cfg) row key leftover windowStart t.now
    (r.1, if r.2.isSome then .reconciled else .threw)

/-- The three of them. -/
structure States where
  test : Coordinator
  redis : Option (Key Hash)
  postgres : Option Row

/-- Their replies. -/
structure Replies where
  test : Reply
  redis : Reply
  postgres : Reply
deriving DecidableEq

/-- The coordinators get the same call at the same time. -/
def allCall : Service States Timed Replies := fun s t =>
  (⟨(testCall cfg key s.test t).1, (redisCall cfg key s.redis t).1,
      (postgresCall cfg key s.postgres t).1⟩,
    ⟨(testCall cfg key s.test t).2, (redisCall cfg key s.redis t).2,
      (postgresCall cfg key s.postgres t).2⟩)

/-- New coordinators. -/
def States.new : States := ⟨newTest cfg, none, none⟩

/-- The replies are the same. -/
def Replies.Same (r : Replies) : Prop := r.test = r.redis ∧ r.redis = r.postgres

/-- The budget and the end of the window are whole, as Postgres and the expiry of a hash need them.
-/
structure WholeAt (now : ℤ) : Prop where
  budget : Whole (cfg.budgetFor key)
  finish : Whole (alignedStart cfg.windowMs now + cfg.windowMs)

/-- The window that starts at `windowStart` is marked in memory if it is marked on Redis, once a
lease has opened it in memory. -/
def MarkedAlike (s : States) (now : ℤ) (windowStart : ℚ) : Prop :=
  ∀ w ∈ s.test.windows key, w.expiresAt = windowStart + cfg.windowMs →
    windowStart ∉ w.reconciledWindowStarts →
      ∀ h ∈ current cfg s.redis now, recField cfg windowStart ∉ h.markers

/-- The mark of the window is not that of a hash of an earlier window. -/
def OwnMark (k : Option (Key Hash)) (now : ℤ) (windowStart : ℚ) : Prop :=
  ∀ h ∈ read k now, recField cfg windowStart ∈ h.markers → h.expiresAt = windowStart + cfg.windowMs

/-- The condition on a call: the numbers of the current window are whole, and its marks are its own
and alike. -/
def InStep (s : States) (t : Timed) : Prop :=
  match t.call with
  | .lease _ => WholeAt cfg key t.now
  | .reconcile _ windowStart => windowStart = alignedStart cfg.windowMs t.now →
      WholeAt cfg key t.now ∧ Whole windowStart ∧ OwnMark cfg s.redis t.now windowStart ∧
        MarkedAlike cfg key s t.now windowStart

/-! ### In sync -/

/-- The page of the current window in memory. -/
abbrev testPage (cfg : Config) (key : String) (now : ℤ) (c : Coordinator) : Option (Page ℚ) :=
  TestCoordinator.pageAt cfg.windowMs (alignedStart cfg.windowMs now) (c.windows key)

/-- The page of the current window on Postgres. -/
abbrev postgresPage (cfg : Config) (now : ℤ) (row : Option Row) : Option (Page ℚ) :=
  PostgresCoordinator.pageAt (postgresConfig cfg) (alignedStart cfg.windowMs now) row

/-- The coordinators have the same page of the current window, but for what was given back in it
before the first lease, and nothing of a later one. -/
structure InSync (now : ℤ) (s : States) : Prop where
  healthy : s.test.healthy = true
  windowMs : s.test.windowMs = some cfg.windowMs
  budgetFor : s.test.budgetFor = cfg.budgetFor
  past_test : ∀ w ∈ s.test.windows key, w.expiresAt ≤ alignedStart cfg.windowMs now + cfg.windowMs
  lives : RedisCoordinator.Lives cfg s.redis now
  past_postgres : ∀ row ∈ s.postgres,
    (row.expiresAt : ℚ) ≤ alignedStart cfg.windowMs now + cfg.windowMs
  agree : Agree (cfg.budgetFor key) (testPage cfg key now s.test)
    (RedisCoordinator.pageAt cfg s.redis now)
  same : RedisCoordinator.pageAt cfg s.redis now = postgresPage cfg now s.postgres
  within : ∀ page ∈ RedisCoordinator.pageAt cfg s.redis now, page.Within (cfg.budgetFor key)

variable {cfg key} {now now' : ℤ} {s : States} {t : Timed}

theorem inSync_new (cfg : Config) (key : String) (now : ℤ) : InSync cfg key now (.new cfg) where
  healthy := rfl
  windowMs := rfl
  budgetFor := rfl
  past_test w hw := by cases hw
  lives rec hrec := by cases hrec
  past_postgres row hrow := by cases hrow
  agree := .closed
  same := rfl
  within page hpage := by cases hpage

/-- Time passes. Once the window is over, all its pages are. -/
theorem InSync.mono (h : InSync cfg key now s) (hle : now ≤ now') : InSync cfg key now' s := by
  have hmono : alignedStart cfg.windowMs (now : ℚ) ≤ alignedStart cfg.windowMs (now' : ℚ) :=
    RedisCoordinator.alignedStart_le_of_clock_le cfg hle
  have hlives : RedisCoordinator.Lives cfg s.redis now' := fun rec hrec =>
    ⟨(h.lives rec hrec).1.trans (add_le_add_left hmono _), (h.lives rec hrec).2⟩
  have hpast : ∀ w ∈ s.test.windows key,
      w.expiresAt ≤ alignedStart cfg.windowMs now' + cfg.windowMs :=
    fun w hw => (h.past_test w hw).trans (add_le_add_left hmono _)
  have hpast' : ∀ row ∈ s.postgres,
      (row.expiresAt : ℚ) ≤ alignedStart cfg.windowMs now' + cfg.windowMs :=
    fun row hrow => (h.past_postgres row hrow).trans (add_le_add_left hmono _)
  rcases hmono.eq_or_lt with heq | hlt
  · have hredis : RedisCoordinator.pageAt cfg s.redis now'
        = RedisCoordinator.pageAt cfg s.redis now := by
      rw [RedisCoordinator.pageAt, RedisCoordinator.pageAt,
        RedisCoordinator.current_eq_filter hlives, RedisCoordinator.current_eq_filter h.lives, heq]
    refine ⟨h.healthy, h.windowMs, h.budgetFor, hpast, hlives, hpast', ?_, ?_, ?_⟩
    · rw [hredis, testPage, ← heq]
      exact h.agree
    · rw [hredis, postgresPage, ← heq]
      exact h.same
    · rw [hredis]
      exact h.within
  · have hstale : ∀ e : ℚ, e ≤ alignedStart cfg.windowMs now + cfg.windowMs →
        e ≠ alignedStart cfg.windowMs now' + cfg.windowMs := by
      rintro e hle' rfl
      exact absurd (le_of_add_le_add_right hle') hlt.not_ge
    have htest : testPage cfg key now' s.test = none := by
      rw [testPage]
      cases hw : s.test.windows key with
      | none => rfl
      | some w => exact TestCoordinator.pageAt_of_ne (hstale _ (h.past_test w hw))
    have hredis : RedisCoordinator.pageAt cfg s.redis now' = none := by
      rw [RedisCoordinator.pageAt, RedisCoordinator.current_eq_filter hlives]
      cases hrec : s.redis with
      | none => rfl
      | some rec =>
        rw [Option.map_some, Option.filter_some,
          if_neg (by simpa using hstale _ (h.lives rec hrec).1)]
        rfl
    have hpostgres : postgresPage cfg now' s.postgres = none := by
      cases hrow : s.postgres with
      | none => rfl
      | some row => exact PostgresCoordinator.pageAt_of_ne (hstale _ (h.past_postgres row hrow))
    refine ⟨h.healthy, h.windowMs, h.budgetFor, hpast, hlives, hpast', ?_, ?_, ?_⟩
    · rw [htest, hredis]
      exact .closed
    · rw [hredis, hpostgres]
    · rw [hredis]
      intro page hpage
      cases hpage

/-- Coordinators whose hash and row are of the current window are in sync when their pages agree. -/
theorem inSync_of_pages {c : Coordinator} {rec : Key Hash} {row : Row} (hhealthy : c.healthy = true)
    (hwindowMs : c.windowMs = some cfg.windowMs) (hbudgetFor : c.budgetFor = cfg.budgetFor)
    (hpast : ∀ w ∈ c.windows key, w.expiresAt ≤ alignedStart cfg.windowMs now + cfg.windowMs)
    (hrec : rec.value.expiresAt = alignedStart cfg.windowMs now + cfg.windowMs)
    (hdies : ∀ d ∈ rec.diesAt, rec.value.expiresAt ≤ (d : ℚ))
    (hrow : (row.expiresAt : ℚ) = alignedStart cfg.windowMs now + cfg.windowMs)
    (hsame : rec.value.page cfg (alignedStart cfg.windowMs now)
      = row.page (alignedStart cfg.windowMs now))
    (hagree : Agree (cfg.budgetFor key) (testPage cfg key now c)
      (some (rec.value.page cfg (alignedStart cfg.windowMs now))))
    (hwithin : (rec.value.page cfg (alignedStart cfg.windowMs now)).Within (cfg.budgetFor key)) :
    InSync cfg key now ⟨c, some rec, some row⟩ := by
  have hlives : RedisCoordinator.Lives cfg (some rec) now := by
    intro rec' hrec'
    obtain rfl := Option.some.inj hrec'
    exact ⟨hrec.le, hdies⟩
  have hredis : RedisCoordinator.pageAt cfg (some rec) now
      = some (rec.value.page cfg (alignedStart cfg.windowMs now)) := by
    rw [RedisCoordinator.pageAt, RedisCoordinator.current_eq_filter hlives, Option.map_some,
      Option.filter_some, if_pos (decide_eq_true hrec), Option.map_some]
  have hpostgres : postgresPage cfg now (some row)
      = some (row.page (alignedStart cfg.windowMs now)) :=
    @PostgresCoordinator.pageAt_of_eq (postgresConfig cfg) row _ hrow
  refine ⟨hhealthy, hwindowMs, hbudgetFor, hpast, hlives, fun row' hrow' => ?_, ?_, ?_, ?_⟩
  · obtain rfl := Option.some.inj hrow'
    exact hrow.le
  · dsimp only
    rw [hredis]
    exact hagree
  · dsimp only
    rw [hredis, hpostgres, hsame]
  · dsimp only
    rw [hredis]
    intro page hpage
    obtain rfl := Option.some.inj hpage
    exact hwithin

/-! ### A lease -/

theorem testCall_lease (h : InSync cfg key now s) {tokens : ℕ} (hpos : 0 < tokens) :
    ∃ w, testCall cfg key s.test ⟨now, .lease tokens⟩ = (s.test.setWindow key w,
        .granted (take (cfg.budgetFor key) (tokens : ℚ) (testPage cfg key now s.test)).2) ∧
      w.expiresAt = alignedStart cfg.windowMs now + cfg.windowMs ∧
      w.page (alignedStart cfg.windowMs now)
        = (take (cfg.budgetFor key) (tokens : ℚ) (testPage cfg key now s.test)).1 := by
  obtain ⟨hreply, w, hset, hexpires, hpage⟩ := @TestCoordinator.lease_page s.test key cfg.windowMs
    (alignedStart cfg.windowMs now) tokens h.healthy (Nat.cast_pos.mpr hpos)
  rw [h.budgetFor] at hreply hpage
  refine ⟨w, ?_, hexpires, hpage⟩
  rw [testCall]
  dsimp only
  rw [hset]
  cases hresult : (TestCoordinator.lease s.test key tokens
      (alignedStart cfg.windowMs now + cfg.windowMs)).2 with
  | ok granted =>
    rw [hresult] at hreply
    rw [← Option.some.inj hreply]
  | error e =>
    rw [hresult] at hreply
    cases hreply

theorem postgresCall_lease (h : InSync cfg key now s) {tokens : ℕ} (hpos : 0 < tokens)
    (hwhole : WholeAt cfg key now) :
    ∃ row, postgresCall cfg key s.postgres ⟨now, .lease tokens⟩ = (some row,
        .granted (take (cfg.budgetFor key) (tokens : ℚ) (postgresPage cfg now s.postgres)).2) ∧
      (row.expiresAt : ℚ) = alignedStart cfg.windowMs now + cfg.windowMs ∧
      row.page (alignedStart cfg.windowMs now)
        = (take (cfg.budgetFor key) (tokens : ℚ) (postgresPage cfg now s.postgres)).1 ∧
      Whole (take (cfg.budgetFor key) (tokens : ℚ) (postgresPage cfg now s.postgres)).2 := by
  have htokens : (0 : ℚ) < tokens := Nat.cast_pos.mpr hpos
  have hwithin : ∀ page ∈ postgresPage cfg now s.postgres, page.Within (cfg.budgetFor key) := by
    rw [← h.same]
    exact h.within
  obtain ⟨row, granted, htx, hgranted, hexpires, hpage⟩ :=
    @PostgresCoordinator.leaseTx_page (postgresConfig cfg) s.postgres key tokens now hwhole.budget
      hwhole.finish (PostgresCoordinator.whole_natCast tokens) htokens hwithin
  refine ⟨row, ?_, hexpires, hpage, ?_⟩
  · rw [postgresCall]
    dsimp only
    rw [PostgresCoordinator.lease, if_neg htokens.not_gt, if_neg htokens.ne', htx]
    exact congrArg (fun g => (some row, Reply.granted g)) hgranted
  · have hgranted' : (granted : ℚ) = (take (cfg.budgetFor key) (tokens : ℚ)
        (postgresPage cfg now s.postgres)).2 := hgranted
    rw [← hgranted']
    exact PostgresCoordinator.whole_intCast granted

theorem redisCall_lease (h : InSync cfg key now s) {tokens : ℕ} (hpos : 0 < tokens)
    (hwhole : WholeAt cfg key now) (hgranted : Whole (take (cfg.budgetFor key) (tokens : ℚ)
      (RedisCoordinator.pageAt cfg s.redis now)).2) :
    ∃ rec, redisCall cfg key s.redis ⟨now, .lease tokens⟩ = (some rec, .granted
        (take (cfg.budgetFor key) (tokens : ℚ) (RedisCoordinator.pageAt cfg s.redis now)).2) ∧
      rec.value.expiresAt = alignedStart cfg.windowMs now + cfg.windowMs ∧
      (∀ d ∈ rec.diesAt, rec.value.expiresAt ≤ (d : ℚ)) ∧
      rec.value.page cfg (alignedStart cfg.windowMs now)
        = (take (cfg.budgetFor key) (tokens : ℚ) (RedisCoordinator.pageAt cfg s.redis now)).1 := by
  have hnonneg : 0 ≤ (take (cfg.budgetFor key) (tokens : ℚ)
      (RedisCoordinator.pageAt cfg s.redis now)).2 :=
    le_min (Nat.cast_nonneg tokens)
      (within_opened (zero_le_one.trans (cfg.one_le_budget key)) h.within).nonneg
  obtain ⟨rec, hkey, hreply, hexpires, hlives, hpage⟩ :=
    RedisCoordinator.leaseLua_page (k := s.redis) hwhole.finish hnonneg hgranted
  refine ⟨rec, ?_, hexpires, hlives, hpage⟩
  rw [redisCall]
  dsimp only
  rw [if_neg hpos.ne', hkey]
  obtain ⟨r, hr, hr'⟩ := Option.map_eq_some_iff.mp hreply
  rw [hr, ← hr']

/-- **A lease gets one reply.** -/
theorem inSync_lease (h : InSync cfg key now s) {tokens : ℕ} (hpos : 0 < tokens)
    (hwhole : WholeAt cfg key now) :
    (allCall cfg key s ⟨now, .lease tokens⟩).2.Same ∧
      InSync cfg key now (allCall cfg key s ⟨now, .lease tokens⟩).1 := by
  have hB : 0 ≤ cfg.budgetFor key := zero_le_one.trans (cfg.one_le_budget key)
  obtain ⟨hsame, hagree⟩ := h.agree.take (tokens : ℚ)
  obtain ⟨w, htest, hwExpires, hwPage⟩ := testCall_lease h hpos
  obtain ⟨row, hpostgres, hrowExpires, hrowPage, hgranted⟩ := postgresCall_lease h hpos hwhole
  rw [← h.same] at hpostgres hrowPage hgranted
  obtain ⟨rec, hredis, hrecExpires, hlives, hrecPage⟩ := redisCall_lease h hpos hwhole hgranted
  rw [allCall, htest, hredis, hpostgres]
  refine ⟨⟨congrArg Reply.granted hsame, rfl⟩, inSync_of_pages h.healthy h.windowMs h.budgetFor ?_
    hrecExpires hlives hrowExpires (hrecPage.trans hrowPage.symm) ?_ ?_⟩
  · intro w' hw'
    rw [TestCoordinator.Coordinator.setWindow] at hw'
    dsimp only at hw'
    rw [Function.update_self] at hw'
    obtain rfl := Option.some.inj hw'
    exact hwExpires.le
  · have htestPage : testPage cfg key now (s.test.setWindow key w)
        = some (take (cfg.budgetFor key) (tokens : ℚ) (testPage cfg key now s.test)).1 := by
      rw [testPage, TestCoordinator.Coordinator.setWindow]
      dsimp only
      rw [Function.update_self, TestCoordinator.pageAt_of_eq hwExpires, hwPage]
    rw [htestPage, hrecPage]
    exact hagree
  · rw [hrecPage]
    exact within_take hB (Nat.cast_nonneg tokens) h.within

/-! ### A reconcile -/

theorem testCall_reconcile (h : InSync cfg key now s) (leftover : ℕ) (windowStart : ℚ) :
    ∃ c, testCall cfg key s.test ⟨now, .reconcile leftover windowStart⟩ = (c, .reconciled) ∧
      c.healthy = true ∧ c.windowMs = some cfg.windowMs ∧ c.budgetFor = cfg.budgetFor ∧
      (∀ w ∈ c.windows key, w.expiresAt ≤ alignedStart cfg.windowMs now + cfg.windowMs) ∧
      testPage cfg key now c = if windowStart = alignedStart cfg.windowMs now then
        giveBack (cfg.budgetFor key) (leftover : ℚ) (testPage cfg key now s.test)
      else testPage cfg key now s.test := by
  have hleftover : (0 : ℚ) ≤ leftover := Nat.cast_nonneg leftover
  obtain ⟨hreply, hframe⟩ :=
    TestCoordinator.reconcile_frame s.test h.healthy key hleftover windowStart
  refine ⟨(TestCoordinator.reconcile s.test key leftover windowStart).1, ?_, ?_, ?_, ?_, ?_, ?_⟩
  · rw [testCall]
    dsimp only
    cases hresult : (TestCoordinator.reconcile s.test key leftover windowStart).2 with
    | ok u => rfl
    | error e =>
      rw [hresult] at hreply
      cases hreply
  · rcases hframe with hsame | ⟨state, w, -, hset, -⟩
    · rw [hsame, h.healthy]
    · rw [hset]
      exact h.healthy
  · rcases hframe with hsame | ⟨state, w, -, hset, -⟩
    · rw [hsame, h.windowMs]
    · rw [hset]
      exact h.windowMs
  · rcases hframe with hsame | ⟨state, w, -, hset, -⟩
    · rw [hsame, h.budgetFor]
    · rw [hset]
      exact h.budgetFor
  · intro w' hw'
    rcases hframe with hsame | ⟨state, w, hstate, hset, hexpires, -⟩
    · rw [hsame] at hw'
      exact h.past_test w' hw'
    · rw [hset, TestCoordinator.Coordinator.setWindow] at hw'
      dsimp only at hw'
      rw [Function.update_self] at hw'
      obtain rfl := Option.some.inj hw'
      rw [hexpires]
      exact h.past_test state hstate
  · split
    · rename_i hcurrent
      rw [hcurrent, testPage, TestCoordinator.reconcile_page h.healthy h.windowMs hleftover,
        h.budgetFor]
    · rename_i hother
      exact TestCoordinator.reconcile_page_of_ne h.healthy h.windowMs hleftover hother

/-- The marks that `InStep` asks for, of pages. -/
theorem MarkedAlike.pages (h : MarkedAlike cfg key s now (alignedStart cfg.windowMs now)) :
    ∀ page ∈ testPage cfg key now s.test, page.credited = false →
      ∀ page' ∈ RedisCoordinator.pageAt cfg s.redis now, page'.credited = false := by
  intro page hpage hopen page' hpage'
  obtain ⟨w, hw, rfl⟩ := Option.map_eq_some_iff.mp hpage
  obtain ⟨hmem, hexpires⟩ := Option.filter_eq_some_iff.mp hw
  obtain ⟨hash, hhash, rfl⟩ := Option.map_eq_some_iff.mp hpage'
  exact decide_eq_false
    (h w hmem (of_decide_eq_true hexpires) (of_decide_eq_false hopen) hash hhash)

/-- **A reconcile of the current window** gets one reply. -/
theorem inSync_reconcile (h : InSync cfg key now s) {leftover : ℕ} (hpos : 0 < leftover)
    (hwhole : WholeAt cfg key now) (hstart : Whole (alignedStart cfg.windowMs now))
    (hown : OwnMark cfg s.redis now (alignedStart cfg.windowMs now))
    (halike : MarkedAlike cfg key s now (alignedStart cfg.windowMs now)) :
    (allCall cfg key s ⟨now, .reconcile leftover (alignedStart cfg.windowMs now)⟩).2.Same ∧
      InSync cfg key now
        (allCall cfg key s ⟨now, .reconcile leftover (alignedStart cfg.windowMs now)⟩).1 := by
  have hB : 0 ≤ cfg.budgetFor key := zero_le_one.trans (cfg.one_le_budget key)
  have hleftover : (0 : ℚ) < leftover := Nat.cast_pos.mpr hpos
  obtain ⟨c, htest, hhealthy, hwindowMs, hbudgetFor, hpast, htestPage⟩ :=
    testCall_reconcile h leftover (alignedStart cfg.windowMs now)
  rw [if_pos rfl] at htestPage
  obtain ⟨row, htx, hrowExpires, hrowPage⟩ := @PostgresCoordinator.reconcileTx_page
    (postgresConfig cfg) key leftover now hwhole.budget hwhole.finish hstart
    (PostgresCoordinator.whole_natCast leftover) s.postgres
  obtain ⟨rec, hkey, hreply, hrecExpires, hlives, hrecPage⟩ :=
    @RedisCoordinator.reconcileLua_page cfg s.redis now leftover hwhole.finish (cfg.budgetFor key)
      h.lives hown
  have hsamePage : some (rec.value.page cfg (alignedStart cfg.windowMs now))
      = some (row.page (alignedStart cfg.windowMs now)) := by
    refine hrecPage.trans (Eq.trans ?_ hrowPage.symm)
    exact congrArg (giveBackOpening (cfg.budgetFor key) (leftover : ℚ)) h.same
  have hredis : redisCall cfg key s.redis
      ⟨now, .reconcile leftover (alignedStart cfg.windowMs now)⟩ = (some rec, .reconciled) := by
    rw [redisCall]
    dsimp only
    rw [if_neg hpos.ne', hkey, if_pos hreply]
  have hpostgres : postgresCall cfg key s.postgres
      ⟨now, .reconcile leftover (alignedStart cfg.windowMs now)⟩ = (some row, .reconciled) := by
    rw [postgresCall]
    dsimp only
    rw [PostgresCoordinator.reconcile, if_neg hleftover.not_gt, if_neg hleftover.ne',
      show PostgresCoordinator.reconcileTx (postgresConfig cfg) s.postgres key leftover
        (alignedStart cfg.windowMs now) now = (some row, some ()) from htx]
    rfl
  rw [allCall, htest, hredis, hpostgres]
  refine ⟨⟨rfl, rfl⟩, inSync_of_pages hhealthy hwindowMs hbudgetFor hpast hrecExpires hlives
    hrowExpires (Option.some.inj hsamePage) ?_ ?_⟩
  · rw [htestPage, hrecPage]
    exact h.agree.giveBack hleftover.le halike.pages
  · exact within_giveBackOpening hB hleftover.le h.within _ hrecPage.symm

/-- **A reconcile of another window** gets one reply, and changes no page of the current one. -/
theorem inSync_reconcile_of_ne (h : InSync cfg key now s) {leftover : ℕ} (hpos : 0 < leftover)
    {windowStart : ℚ} (hne : windowStart ≠ alignedStart cfg.windowMs now) :
    (allCall cfg key s ⟨now, .reconcile leftover windowStart⟩).2.Same ∧
      InSync cfg key now (allCall cfg key s ⟨now, .reconcile leftover windowStart⟩).1 := by
  have hleftover : (0 : ℚ) < leftover := Nat.cast_pos.mpr hpos
  obtain ⟨c, htest, hhealthy, hwindowMs, hbudgetFor, hpast, htestPage⟩ :=
    testCall_reconcile h leftover windowStart
  rw [if_neg hne] at htestPage
  have hredis : redisCall cfg key s.redis ⟨now, .reconcile leftover windowStart⟩
      = (s.redis, .reconciled) := by
    rw [redisCall]
    dsimp only
    rw [if_neg hpos.ne', RedisCoordinator.reconcileLua, if_pos hne]
    rfl
  have hpostgres : postgresCall cfg key s.postgres ⟨now, .reconcile leftover windowStart⟩
      = (s.postgres, .reconciled) := by
    rw [postgresCall]
    dsimp only
    rw [PostgresCoordinator.reconcile, if_neg hleftover.not_gt, if_neg hleftover.ne',
      show PostgresCoordinator.reconcileTx (postgresConfig cfg) s.postgres key leftover windowStart
        now = (s.postgres, some ()) from if_pos hne]
    rfl
  rw [allCall, htest, hredis, hpostgres]
  refine ⟨⟨rfl, rfl⟩, hhealthy, hwindowMs, hbudgetFor, hpast, h.lives, h.past_postgres, ?_, h.same,
    h.within⟩
  dsimp only
  rw [htestPage]
  exact h.agree

/-- **A call that meets the condition** gets one reply, and keeps the coordinators in sync. -/
theorem inSync_step (h : InSync cfg key t.now s) (hpos : 0 < t.call.amount)
    (hok : InStep cfg key s t) :
    (allCall cfg key s t).2.Same ∧ InSync cfg key t.now (allCall cfg key s t).1 := by
  obtain ⟨now, call⟩ := t
  cases call with
  | lease tokens => exact inSync_lease h hpos hok
  | reconcile leftover windowStart =>
    by_cases hcurrent : windowStart = alignedStart cfg.windowMs now
    · obtain ⟨hwhole, hstart, hown, halike⟩ := hok hcurrent
      subst hcurrent
      exact inSync_reconcile h hpos hwhole hstart hown halike
    · exact inSync_reconcile_of_ne h hpos hcurrent

/-! ### Runs -/

/-- **All calls of a run get one reply**, where every call meets the condition. -/
theorem replies_agree (cfg : Config) (key : String) {calls : List Timed}
    (hpos : ∀ t ∈ calls, 0 < t.call.amount)
    (hsorted : calls.Pairwise fun t t' => t.now ≤ t'.now)
    (hok : AllMet (allCall cfg key) (InStep cfg key) (.new cfg) calls) :
    ∀ r ∈ answers (allCall cfg key) (.new cfg) calls, r.Same := by
  have hmono : ∀ {now now' : ℤ} {s : States}, now ≤ now' → InSync cfg key now s →
      InSync cfg key now' s := fun hle h => h.mono hle
  have hstep : ∀ (s : States) (t : Timed), InSync cfg key t.now s →
      0 < t.call.amount ∧ InStep cfg key s t →
        (allCall cfg key s t).2.Same ∧ InSync cfg key t.now (allCall cfg key s t).1 :=
    fun s t h hok => inSync_step h hok.1 hok.2
  exact forall_answers_of_start (R := InSync cfg key) hmono hstep (inSync_new cfg key) hsorted
    (hok.and_forall hpos)

/-! ### A reconcile before the first lease -/

instance (r : Replies) : Decidable r.Same :=
  inferInstanceAs (Decidable (r.test = r.redis ∧ r.redis = r.postgres))

instance (cfg : Config) (key : String) (now : ℤ) : Decidable (WholeAt cfg key now) :=
  decidable_of_iff (Whole (cfg.budgetFor key) ∧
      Whole (alignedStart cfg.windowMs (now : ℚ) + cfg.windowMs))
    ⟨fun h => ⟨h.1, h.2⟩, fun h => ⟨h.budget, h.finish⟩⟩

instance (cfg : Config) (key : String) (s : States) (now : ℤ) (windowStart : ℚ) :
    Decidable (MarkedAlike cfg key s now windowStart) :=
  inferInstanceAs (Decidable (∀ w ∈ s.test.windows key, w.expiresAt = windowStart + cfg.windowMs →
    windowStart ∉ w.reconciledWindowStarts →
      ∀ h ∈ current cfg s.redis now, recField cfg windowStart ∉ h.markers))

instance (cfg : Config) (k : Option (Key Hash)) (now : ℤ) (windowStart : ℚ) :
    Decidable (OwnMark cfg k now windowStart) :=
  inferInstanceAs (Decidable (∀ h ∈ read k now, recField cfg windowStart ∈ h.markers →
    h.expiresAt = windowStart + cfg.windowMs))

instance (cfg : Config) (key : String) (s : States) : ∀ t, Decidable (InStep cfg key s t)
  | ⟨now, .lease _⟩ => inferInstanceAs (Decidable (WholeAt cfg key now))
  | ⟨now, .reconcile _ windowStart⟩ =>
    inferInstanceAs (Decidable (windowStart = alignedStart cfg.windowMs (now : ℚ) →
      WholeAt cfg key now ∧ Whole windowStart ∧ OwnMark cfg s.redis now windowStart ∧
        MarkedAlike cfg key s now windowStart))

/-- Leases, what is left over of them, and a window that has rolled. -/
def drainAndRoll : List Timed :=
  [⟨100, .lease 6⟩, ⟨300, .reconcile 2 0⟩, ⟨400, .lease 8⟩, ⟨400, .reconcile 1 0⟩, ⟨1200, .lease 3⟩,
    ⟨1300, .reconcile 1 0⟩, ⟨1400, .lease 9⟩]

/-- Seven replies: the leases of eight and of nine are granted in part. -/
theorem replies_agree_drainAndRoll :
    (answers (allCall RedisCoordinator.tenASecond "api") (.new RedisCoordinator.tenASecond)
      drainAndRoll).length = 7 ∧
    ∀ r ∈ answers (allCall RedisCoordinator.tenASecond "api") (.new RedisCoordinator.tenASecond)
      drainAndRoll, r.Same :=
  ⟨rfl, replies_agree RedisCoordinator.tenASecond "api" (by decide) (by decide) (by decide +kernel)⟩

/-- Something is given back to a window before its first lease, and again after it. -/
def givenBackEarly : List Timed :=
  [⟨100, .reconcile 5 0⟩, ⟨200, .lease 6⟩, ⟨300, .reconcile 5 0⟩, ⟨400, .lease 6⟩]

/-- **A reconcile before the first lease**: the next one is credited in memory, and not on Redis or
Postgres, which grant four of the last six tokens. -/
theorem replies_givenBackEarly :
    (∀ t ∈ givenBackEarly, 0 < t.call.amount) ∧
      givenBackEarly.Pairwise (fun t t' => t.now ≤ t'.now) ∧
      answers (allCall RedisCoordinator.tenASecond "api") (.new RedisCoordinator.tenASecond)
        givenBackEarly = [⟨.reconciled, .reconciled, .reconciled⟩,
          ⟨.granted 6, .granted 6, .granted 6⟩, ⟨.reconciled, .reconciled, .reconciled⟩,
          ⟨.granted 6, .granted 4, .granted 4⟩] ∧
      ¬ ∀ r ∈ answers (allCall RedisCoordinator.tenASecond "api") (.new RedisCoordinator.tenASecond)
        givenBackEarly, r.Same := by
  decide +kernel

end ThrottleKit.CoordinatorsAgree
