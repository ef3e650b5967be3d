import Mathlib.Data.List.GetD
import ThrottleKit.Algorithms.Conformance
import ThrottleKit.Algorithms.FixedWindow
import ThrottleKit.Algorithms.Quota
import ThrottleKit.Algorithms.SlidingWindowLog

/-!
# What a denial says about retrying

A denial comes with `retryAfterMs`, the time to wait. It is *honest* when the same check is admitted
once that time has passed, as long as nothing else was admitted meanwhile, and *tight* when the
check is denied at every earlier whole millisecond.

On exact rationals GCRA and the fixed window are honest in every state. The token bucket counts from
the check on, and so understates the wait where its state was counted after the check; the log looks
up the stamp that has to leave first, and so needs its stamps in order. Neither happens on a clock
that does not go back. A quota is honest where its calendar is in range, but a rolling one is a
sliding window, whose `retryAfterMs` is when its estimate moves next and not when the check fits.
Rounding may put a ceiling a millisecond off; where it changes no reply, the promise is that of
exact arithmetic.

## Main definitions

* `Honest`, `Tight` — what `retryAfterMs` promises
* `Policy`, `Policy.Settled` — the strategies, and the states in which they keep it
* `Policy.AsExact` — rounding does not change the reply

## Main results

* `retryAfterMs_honest` — the promise, strategy by strategy
* `settled_of_sorted` — checks in the order of their times leave settled states
* `not_retryAfterMs_honest` — where it is not kept
-/

namespace ThrottleKit

open Lockstep Rounding

section Promises

variable {S : Type} {check : Option S → ℚ → ℚ → ApplyOutcome S Decision}

/-- None of the calls is admitted. -/
def NoneAdmitted (check : Option S → ℚ → ℚ → ApplyOutcome S Decision) (state : Option S)
    (calls : List Call) : Prop :=
  ∀ d ∈ answers (served check) state calls, d.allowed = false

/-- The check of `cost` at `now`, if denied, is admitted after its `retryAfterMs`, when nothing was
admitted in between. -/
def Honest (check : Option S → ℚ → ℚ → ApplyOutcome S Decision) (state : Option S) (now cost : ℚ) :
    Prop :=
  (check state now cost).result.allowed = false →
    ∀ between, NoneAdmitted check state (⟨now, cost⟩ :: between) →
      (check (after (served check) state (⟨now, cost⟩ :: between))
        (now + (check state now cost).result.retryAfterMs) cost).result.allowed = true

/-- The check of `cost` at `now`, if denied, is denied at every whole millisecond before its
`retryAfterMs` is over. -/
def Tight (check : Option S → ℚ → ℚ → ApplyOutcome S Decision) (state : Option S) (now cost : ℚ) :
    Prop :=
  (check state now cost).result.allowed = false →
    ∀ between, NoneAdmitted check state (⟨now, cost⟩ :: between) →
      ∀ ms : ℕ, (ms : ℚ) < (check state now cost).result.retryAfterMs →
        (check (after (served check) state (⟨now, cost⟩ :: between)) (now + ms) cost).result.allowed
          = false

/-- Where denials keep nothing, calls of which none is admitted leave the state as it is. -/
theorem after_of_noneAdmitted
    (hkeeps : ∀ state now cost, (check state now cost).result.allowed = false →
      (check state now cost).persist = false) :
    ∀ (calls : List Call) {state : Option S}, NoneAdmitted check state calls →
      after (served check) state calls = state
  | [], _, _ => rfl
  | call :: calls, state, h => by
    have hdenied : (check state call.now call.cost).result.allowed = false :=
      h _ List.mem_cons_self
    have hstate : (served check state call).1 = state := by
      rw [served]
      dsimp only
      rw [hkeeps _ _ _ hdenied]
      rfl
    rw [after_cons, hstate]
    refine after_of_noneAdmitted hkeeps calls fun d hd => h d (List.mem_cons_of_mem _ ?_)
    rwa [hstate]

/-- It is enough to look at the state of the denial. -/
theorem honest_of_state
    (hkeeps : ∀ state now cost, (check state now cost).result.allowed = false →
      (check state now cost).persist = false) {state : Option S} {now cost : ℚ}
    (h : (check state now cost).result.allowed = false →
      (check state (now + (check state now cost).result.retryAfterMs) cost).result.allowed = true) :
    Honest check state now cost := by
  intro hdenied between hnone
  rw [after_of_noneAdmitted hkeeps _ hnone]
  exact h hdenied

theorem tight_of_state
    (hkeeps : ∀ state now cost, (check state now cost).result.allowed = false →
      (check state now cost).persist = false) {state : Option S} {now cost : ℚ}
    (h : (check state now cost).result.allowed = false →
      ∀ ms : ℕ, (ms : ℚ) < (check state now cost).result.retryAfterMs →
        (check state (now + ms) cost).result.allowed = false) :
    Tight check state now cost := by
  intro hdenied between hnone
  rw [after_of_noneAdmitted hkeeps _ hnone]
  exact h hdenied

end Promises

/-! ### GCRA -/

theorem Gcra.allowed_iff {cfg : Config} {state : Option ℚ} {now cost : ℚ} :
    (check cfg state now cost).result.allowed = true ↔
      max (state.getD now) now + cfg.T * cost - cfg.tau ≤ now := by
  rw [← not_iff_not, Bool.not_eq_true, denied_iff, not_le, fl_exact, fl_exact, fl_exact]

theorem Gcra.retryAfterMs_of_denied {cfg : Config} {state : Option ℚ} {now cost : ℚ}
    (h : (check cfg state now cost).result.allowed = false) :
    (check cfg state now cost).result.retryAfterMs
      = ⌈max (state.getD now) now + cfg.T * cost - cfg.tau - now⌉ := by
  rw [denied_iff, fl_exact, fl_exact, fl_exact] at h
  rw [check_eq, if_pos h]

theorem Gcra.honest (cfg : Config) {state : Option ℚ} {now cost : ℚ}
    (hadm : (check cfg none now cost).result.allowed = true) :
    Honest (check cfg) state now cost := by
  refine honest_of_state (keeps cfg) fun h => ?_
  rw [retryAfterMs_of_denied h]
  rw [allowed_iff, Option.getD_none, max_self] at hadm
  have hceil := Int.le_ceil (max (state.getD now) now + cfg.T * cost - cfg.tau - now)
  generalize (⌈max (state.getD now) now + cfg.T * cost - cfg.tau - now⌉ : ℤ) = r at hceil ⊢
  rw [allowed_iff]
  cases state with
  | none =>
    rw [Option.getD_none, max_self]
    linarith
  | some tat =>
    rw [Option.getD_some] at hceil ⊢
    rcases max_cases tat (now + r) with ⟨heq, -⟩ | ⟨heq, -⟩
    · linarith [le_max_left tat now]
    · linarith

theorem Gcra.tight (cfg : Config) (state : Option ℚ) (now cost : ℚ) :
    Tight (check cfg) state now cost := by
  refine tight_of_state (keeps cfg)
    fun h ms hms => ?_
  rw [retryAfterMs_of_denied h] at hms
  have hlt : (ms : ℚ) < max (state.getD now) now + cfg.T * cost - cfg.tau - now := by
    have hceil : (ms : ℤ) < ⌈max (state.getD now) now + cfg.T * cost - cfg.tau - now⌉ := by
      exact_mod_cast hms
    exact_mod_cast Int.lt_ceil.mp hceil
  have hnonneg : (0 : ℚ) ≤ ms := Nat.cast_nonneg ms
  have htat : max (state.getD now) now ≤ max (state.getD (now + ms)) (now + ms) := by
    cases state with
    | none => simp
    | some tat => exact max_le_max le_rfl (le_add_of_nonneg_right hnonneg)
  rw [denied_iff, fl_exact, fl_exact, fl_exact]
  linarith

/-! ### The token bucket -/

theorem TokenBucket.allowed_iff [Rounding] {cfg : Config} {state : Option State} {now cost : ℚ} :
    (check cfg state now cost).result.allowed = true ↔ cost ≤ tokensAt cfg state now := by
  rw [← not_iff_not, Bool.not_eq_true, denied_iff, not_le]

theorem TokenBucket.retryAfterMs_of_denied {cfg : Config} {state : Option State} {now cost : ℚ}
    (h : (check cfg state now cost).result.allowed = false) :
    (check cfg state now cost).result.retryAfterMs
      = ⌈(cost - tokensAt cfg state now) / cfg.refillPerMs⌉ := by
  rw [denied_iff] at h
  rw [check_eq, if_neg (not_le.mpr h)]

/-- What a bucket that was counted by `now` has after `d` more. -/
theorem TokenBucket.tokensAt_add {cfg : Config} {state : Option State} {now d : ℚ}
    (hlast : ∀ s ∈ state, s.last ≤ now) (hd : 0 ≤ d) :
    min cfg.capacity (tokensAt cfg state now + d * cfg.refillPerMs)
      ≤ tokensAt cfg state (now + d) := by
  cases state with
  | none => simp
  | some s =>
    have hle := hlast s rfl
    show min cfg.capacity (min cfg.capacity (s.tokens + max 0 (now - s.last) * cfg.refillPerMs)
        + d * cfg.refillPerMs)
      ≤ min cfg.capacity (s.tokens + max 0 (now + d - s.last) * cfg.refillPerMs)
    rw [max_eq_right (by linarith : 0 ≤ now - s.last),
      max_eq_right (by linarith : 0 ≤ now + d - s.last)]
    refine le_min (min_le_left _ _) ((min_le_right _ _).trans ?_)
    have hmin := min_le_right cfg.capacity (s.tokens + (now - s.last) * cfg.refillPerMs)
    calc min cfg.capacity (s.tokens + (now - s.last) * cfg.refillPerMs) + d * cfg.refillPerMs
        ≤ s.tokens + (now - s.last) * cfg.refillPerMs + d * cfg.refillPerMs :=
          add_le_add_left hmin _
      _ = s.tokens + (now + d - s.last) * cfg.refillPerMs := by ring

theorem TokenBucket.honest (cfg : Config) {state : Option State} {now cost : ℚ}
    (hlast : ∀ s ∈ state, s.last ≤ now)
    (hadm : (check cfg none now cost).result.allowed = true) :
    Honest (check cfg) state now cost := by
  refine honest_of_state (keeps cfg) fun h => ?_
  rw [retryAfterMs_of_denied h]
  rw [allowed_iff, tokensAt_none] at hadm
  rw [denied_iff] at h
  have hceil := Int.le_ceil ((cost - tokensAt cfg state now) / cfg.refillPerMs)
  have hpos : 0 ≤ (cost - tokensAt cfg state now) / cfg.refillPerMs :=
    div_nonneg (sub_nonneg.mpr h.le) cfg.refillPerMs_pos.le
  rw [div_le_iff₀ cfg.refillPerMs_pos] at hceil
  rw [allowed_iff]
  refine le_trans (le_min hadm ?_) (tokensAt_add hlast (by exact_mod_cast Int.ceil_nonneg hpos))
  linarith

theorem TokenBucket.tight (cfg : Config) (state : Option State) (now cost : ℚ) :
    Tight (check cfg) state now cost := by
  refine tight_of_state (keeps cfg)
    fun h ms hms => ?_
  rw [retryAfterMs_of_denied h] at hms
  have hlt : (ms : ℚ) < (cost - tokensAt cfg state now) / cfg.refillPerMs := by
    have hceil : (ms : ℤ) < ⌈(cost - tokensAt cfg state now) / cfg.refillPerMs⌉ := by
      exact_mod_cast hms
    exact_mod_cast Int.lt_ceil.mp hceil
  rw [lt_div_iff₀ cfg.refillPerMs_pos] at hlt
  have hdrip : tokensAt cfg state (now + ms)
      ≤ tokensAt cfg state now + (now + ms - now) * cfg.refillPerMs :=
    tokensAt_le (le_add_of_nonneg_right (Nat.cast_nonneg ms))
  rw [denied_iff]
  rw [add_sub_cancel_left] at hdrip
  linarith

/-! ### Windows and periods -/

theorem FixedWindow.honest (cfg : Config) {state : Option State} {now cost : ℚ}
    (hadm : (check cfg none now cost).result.allowed = true) :
    Honest (check cfg) state now cost := by
  refine honest_of_state (keeps cfg) fun h => ?_
  have hfits : cost ≤ cfg.limit := by
    rw [← Bool.not_eq_false, denied_iff, not_lt] at hadm
    simpa [countIn] using hadm
  rw [denied_iff, startOf_exact, fl_exact] at h
  rw [← Bool.not_eq_false, denied_iff, not_lt, startOf_exact, fl_exact]
  have hretry : (check cfg state now cost).result.retryAfterMs
      = ⌈AlignedWindow.alignedStart cfg.windowMs now + cfg.windowMs - now⌉ := by
    rw [check_eq, if_neg (not_le.mpr h)]
  have hceil := Int.le_ceil (AlignedWindow.alignedStart cfg.windowMs now + cfg.windowMs - now)
  rw [← hretry] at hceil
  have hnext := AlignedWindow.add_le_alignedStart cfg.windowMs_pos (by linarith :
    AlignedWindow.alignedStart cfg.windowMs now + cfg.windowMs
      ≤ now + (check cfg state now cost).result.retryAfterMs)
  -- a denied check fits in an empty window, so the state counts in the window that has ended
  have hzero : countIn state (AlignedWindow.alignedStart cfg.windowMs
      (now + (check cfg state now cost).result.retryAfterMs)) = 0 := by
    cases state with
    | none => rfl
    | some st =>
      by_cases hstart : st.start = AlignedWindow.alignedStart cfg.windowMs now
      · refine if_neg ?_
        rw [hstart]
        exact ne_of_lt ((lt_add_of_pos_right _ cfg.windowMs_pos).trans_le hnext)
      · have hcount : countIn (some st) (AlignedWindow.alignedStart cfg.windowMs now) = 0 :=
          if_neg hstart
        rw [hcount, zero_add] at h
        exact absurd hfits (not_le.mpr h)
  rw [hzero, zero_add]
  exact hfits

theorem Quota.denied_iff [Rounding] {cfg : Config} {state : Option State} {now cost : ℚ} :
    (check cfg state now cost).result.allowed = false ↔
      cfg.limit < fl (countIn state (cfg.resetCadence.bounds now).start + cost) := by
  rw [check]
  split <;> simp_all

theorem Quota.keeps [Rounding] (cfg : Config) (state : Option State) (now cost : ℚ)
    (h : (check cfg state now cost).result.allowed = false) :
    (check cfg state now cost).persist = false := by
  rw [denied_iff] at h
  rw [check, if_neg (not_le.mpr h)]

/-- A period in range ends after the instant it is of. -/
theorem Quota.lt_reset {cadence : Cadence} {now : ℚ} (h : cadence.InRange now) :
    now < (cadence.bounds now).reset := by
  cases cadence with
  | fixed periodMs anchor hpos =>
    have hlt := AlignedWindow.lt_alignedStart_add (t := now - anchor) hpos
    show now < anchor + AlignedWindow.alignedStart periodMs (now - anchor) + periodMs
    linarith
  | calendar cadence offsetMinutes weekStartsOn =>
    have hspec := @Calendar.periodDays_spec cadence weekStartsOn _ _ h h
    exact not_le.mp fun hle => absurd (Calendar.le_dayOf.mpr hle) (not_le.mpr hspec.1)

theorem Quota.honest (cfg : Config) {state : Option State} {now cost : ℚ}
    (hrange : cfg.resetCadence.InRange now)
    (hadm : (check cfg none now cost).result.allowed = true) :
    Honest (check cfg) state now cost := by
  refine honest_of_state (keeps cfg) fun h => ?_
  have hfits : cost ≤ cfg.limit := by
    rw [← Bool.not_eq_false, denied_iff, not_lt] at hadm
    simpa [countIn] using hadm
  rw [denied_iff, fl_exact] at h
  rw [← Bool.not_eq_false, denied_iff, not_lt, fl_exact]
  have hretry : (check cfg state now cost).result.retryAfterMs
      = ⌈(cfg.resetCadence.bounds now).reset - now⌉ := by
    rw [check_eq, if_neg (not_le.mpr h)]
  have hceil := Int.le_ceil ((cfg.resetCadence.bounds now).reset - now)
  rw [← hretry] at hceil
  have hlt := lt_reset hrange
  have hrange' := Cadence.inRange_mono (by linarith :
    now ≤ now + (check cfg state now cost).result.retryAfterMs) hrange
  have hnext := Cadence.bounds_start_ne hrange hrange' (by linarith)
  have hzero : countIn state (cfg.resetCadence.bounds
      (now + (check cfg state now cost).result.retryAfterMs)).start = 0 := by
    cases state with
    | none => rfl
    | some st =>
      by_cases hstart : st.start = (cfg.resetCadence.bounds now).start
      · refine if_neg ?_
        rw [hstart]
        exact hnext
      · have hcount : countIn (some st) (cfg.resetCadence.bounds now).start = 0 := if_neg hstart
        rw [hcount, zero_add] at h
        exact absurd hfits (not_le.mpr h)
  rw [hzero, zero_add]
  exact hfits

/-! ### The log -/

/-- Dropping a prefix that meets a weaker condition first makes no difference. -/
theorem dropWhile_dropWhile {α : Type*} {p q : α → Bool} (h : ∀ x, p x = true → q x = true) :
    ∀ l : List α, (l.dropWhile p).dropWhile q = l.dropWhile q
  | [] => rfl
  | x :: l => by
    by_cases hp : p x = true
    · rw [List.dropWhile_cons_of_pos hp, List.dropWhile_cons_of_pos (h x hp)]
      exact dropWhile_dropWhile h l
    · rw [List.dropWhile_cons_of_neg hp]

/-- A prefix that meets the condition is dropped. -/
theorem length_dropWhile_le_of_take {α : Type*} {p : α → Bool} :
    ∀ (l : List α) (k : ℕ), (∀ x ∈ l.take k, p x = true) → (l.dropWhile p).length ≤ l.length - k
  | l, 0, _ => (List.dropWhile_suffix p).length_le
  | [], _ + 1, _ => by simp
  | x :: l, k + 1, h => by
    rw [List.take_succ_cons] at h
    rw [List.dropWhile_cons_of_pos (h x List.mem_cons_self)]
    have ih := length_dropWhile_le_of_take l k fun y hy => h y (List.mem_cons_of_mem _ hy)
    rw [List.length_cons]
    omega

theorem SlidingWindowLog.denied_iff [Rounding] {cfg : Config} {state : Option (List ℚ)}
    {now cost : ℚ} :
    (check cfg state now cost).result.allowed = false ↔
      cfg.limit < fl ((survivors cfg state now).length + ⌈cost⌉) := by
  rw [check]
  dsimp only
  split <;> simp_all

theorem SlidingWindowLog.keeps [Rounding] (cfg : Config) (state : Option (List ℚ)) (now cost : ℚ)
    (h : (check cfg state now cost).result.allowed = false) :
    (check cfg state now cost).persist = false := by
  rw [denied_iff] at h
  rw [check, if_neg (not_le.mpr h)]

/-- What a check that persists leaves. -/
theorem SlidingWindowLog.eq_of_persist [Rounding] {cfg : Config} {state : Option (List ℚ)}
    {now cost : ℚ}
    {log : List ℚ} (hpersist : (check cfg state now cost).persist = true)
    (hlog : (check cfg state now cost).state = some log) :
    log = survivors cfg state now ++ List.replicate ⌈cost⌉.toNat now := by
  rw [check] at hpersist hlog
  split at hpersist
  · rename_i hfits
    rw [if_pos hfits] at hlog
    exact (Option.some.inj hlog).symm
  · cases hpersist

/-- The survivors at a later instant survive at an earlier one. -/
theorem SlidingWindowLog.survivors_add (cfg : Config) (state : Option (List ℚ)) (now : ℚ) {d : ℚ}
    (hd : 0 ≤ d) : survivors cfg state (now + d)
      = (survivors cfg state now).dropWhile fun stamp => stamp ≤ now + d - cfg.windowMs := by
  refine (dropWhile_dropWhile (fun stamp h => ?_) _).symm
  rw [decide_eq_true_eq, fl_exact] at h ⊢
  linarith

/-- Once the `k` oldest survivors have left, at most the others are there. -/
theorem SlidingWindowLog.length_survivors_add {cfg : Config} {state : Option (List ℚ)} {now d : ℚ}
    {k : ℕ} (hd : 0 ≤ d)
    (hleft : ∀ stamp ∈ (survivors cfg state now).take k, stamp + cfg.windowMs - now ≤ d) :
    (survivors cfg state (now + d)).length ≤ (survivors cfg state now).length - k := by
  rw [survivors_add cfg state now hd]
  refine length_dropWhile_le_of_take _ k fun stamp hstamp => ?_
  rw [decide_eq_true_eq]
  linarith [hleft stamp hstamp]

/-- The stamps of a log in order up to `now`. -/
def SlidingWindowLog.Ordered (log : List ℚ) (now : ℚ) : Prop :=
  log.Pairwise (· ≤ ·) ∧ ∀ stamp ∈ log, stamp ≤ now

theorem SlidingWindowLog.Ordered.survivors [Rounding] {cfg : Config} {state : Option (List ℚ)}
    {now : ℚ}
    (h : ∀ log ∈ state, Ordered log now) : Ordered (survivors cfg state now) now := by
  cases state with
  | none => exact ⟨.nil, by simp [SlidingWindowLog.survivors]⟩
  | some log =>
    obtain ⟨hsorted, hle⟩ := h log rfl
    have hsuffix : SlidingWindowLog.survivors cfg (some log) now <:+ log :=
      List.dropWhile_suffix fun stamp => decide (stamp ≤ fl (now - cfg.windowMs))
    exact ⟨hsorted.sublist hsuffix.sublist, fun stamp hs => hle stamp (hsuffix.subset hs)⟩

/-- A stamp among the first `k` of a log in order is no later than the `k`th. -/
theorem SlidingWindowLog.Ordered.le_getD {log : List ℚ} {now : ℚ} (h : Ordered log now) {k : ℕ}
    (hk : 0 < k) (hlen : k ≤ log.length) {stamp : ℚ} (hstamp : stamp ∈ log.take k) :
    stamp ≤ log.getD (k - 1) now := by
  obtain ⟨i, hi, rfl⟩ := List.mem_take_iff_getElem.mp hstamp
  have hlt : k - 1 < log.length := by omega
  rw [List.getD_eq_getElem _ _ hlt]
  rcases Nat.lt_or_ge i (k - 1) with hik | hik
  · exact List.pairwise_iff_getElem.mp h.1 i (k - 1) (by omega) hlt hik
  · have : i = k - 1 := by omega
    subst this
    exact le_rfl

/-- Where the wait of a denial is over, enough stamps have left. -/
theorem SlidingWindowLog.length_after_retry {cfg : Config} {state : Option (List ℚ)} {now : ℚ}
    {units : ℤ} (hordered : ∀ log ∈ state, Ordered log now) (hunits : (units : ℚ) ≤ cfg.limit)
    (hdenied : cfg.limit < (survivors cfg state now).length + units) :
    ((survivors cfg state (now + retryAfter cfg (survivors cfg state now) now units)).length : ℚ)
      + units ≤ cfg.limit := by
  obtain ⟨live, hlive⟩ : ∃ live, live = survivors cfg state now := ⟨_, rfl⟩
  have horder : Ordered live now := hlive ▸ Ordered.survivors hordered
  rw [← hlive] at hdenied ⊢
  have hlen : 0 < live.length := by
    have hpos : (0 : ℚ) < live.length := by linarith
    exact_mod_cast hpos
  obtain ⟨kMin, hkMin⟩ : ∃ kMin : ℚ,
    kMin = min (max ((live.length : ℚ) + units - cfg.limit) 1) live.length := ⟨_, rfl⟩
  have hk1 : 1 ≤ kMin := by
    rw [hkMin]
    exact le_min (le_max_right _ _) (by exact_mod_cast hlen)
  have hneed : (live.length : ℚ) + units - cfg.limit ≤ kMin := by
    rw [hkMin]
    exact le_min (le_max_left _ _) (by linarith)
  have hkle : kMin ≤ live.length := hkMin ▸ min_le_right _ _
  rw [retryAfter, if_neg hlen.ne']
  simp only [fl_exact]
  rw [← hkMin]
  split
  · rename_i hden
    obtain ⟨k, hk⟩ : ∃ k : ℕ, k = kMin.num.toNat := ⟨_, rfl⟩
    have hkeq : (k : ℚ) = kMin := by
      have hnum : (kMin.num : ℚ) = kMin := by
        rw [← Rat.num_div_den kMin, hden]
        simp
      have hnonneg : 0 ≤ kMin.num := Rat.num_nonneg.mpr (by linarith)
      rw [hk, ← hnum]
      exact_mod_cast Int.toNat_of_nonneg hnonneg
    have hkpos : 0 < k := by
      have hone : (1 : ℚ) ≤ k := hkeq ▸ hk1
      exact_mod_cast hone
    have hklen : k ≤ live.length := by
      have hle : (k : ℚ) ≤ live.length := hkeq ▸ hkle
      exact_mod_cast hle
    rw [← hk]
    have hleft : ∀ stamp ∈ live.take k, stamp + cfg.windowMs - now
        ≤ max 1 (⌈live.getD (k - 1) now + cfg.windowMs - now⌉ : ℚ) := by
      intro stamp hstamp
      have hle := horder.le_getD hkpos hklen hstamp
      calc stamp + cfg.windowMs - now ≤ live.getD (k - 1) now + cfg.windowMs - now := by linarith
        _ ≤ ⌈live.getD (k - 1) now + cfg.windowMs - now⌉ := Int.le_ceil _
        _ ≤ _ := le_max_right _ _
    rw [hlive] at hleft hklen hneed ⊢
    have hcount := length_survivors_add (zero_le_one.trans (le_max_left _ _)) hleft
    have hcount' : ((survivors cfg state (now + max 1 (⌈(survivors cfg state now).getD (k - 1) now
        + cfg.windowMs - now⌉ : ℚ))).length : ℚ) ≤ (survivors cfg state now).length - k := by
      rw [← Nat.cast_sub hklen]
      exact_mod_cast hcount
    linarith
  · have hleft : ∀ stamp ∈ live.take live.length, stamp + cfg.windowMs - now
        ≤ max 1 (⌈now + cfg.windowMs - now⌉ : ℚ) := by
      intro stamp hstamp
      have hle := horder.2 stamp (List.take_subset _ _ hstamp)
      calc stamp + cfg.windowMs - now ≤ now + cfg.windowMs - now := by linarith
        _ ≤ ⌈now + cfg.windowMs - now⌉ := Int.le_ceil _
        _ ≤ _ := le_max_right _ _
    rw [hlive] at hleft
    have hcount := length_survivors_add (zero_le_one.trans (le_max_left _ _)) hleft
    rw [Nat.sub_self, Nat.le_zero] at hcount
    rw [hcount]
    simpa using hunits

theorem SlidingWindowLog.honest (cfg : Config) {state : Option (List ℚ)} {now cost : ℚ}
    (hordered : ∀ log ∈ state, Ordered log now)
    (hadm : (check cfg none now cost).result.allowed = true) :
    Honest (check cfg) state now cost := by
  refine honest_of_state (keeps cfg) fun h => ?_
  have hunits : ((⌈cost⌉ : ℤ) : ℚ) ≤ cfg.limit := by
    rw [← Bool.not_eq_false, denied_iff, not_lt] at hadm
    simpa [survivors] using hadm
  rw [denied_iff] at h
  have hretry : (check cfg state now cost).result.retryAfterMs
      = retryAfter cfg (survivors cfg state now) now ⌈cost⌉ := by
    rw [check, if_neg (not_le.mpr h)]
  rw [← Bool.not_eq_false, denied_iff, not_lt, hretry]
  exact length_after_retry hordered hunits h

/-! ### All of them -/

/-- The strategies that invert their own admission rule. -/
inductive Policy
  | gcra (cfg : Gcra.Config)
  | tokenBucket (cfg : TokenBucket.Config)
  | fixedWindow (cfg : FixedWindow.Config)
  /-- A quota with a calendar or fixed cadence. -/
  | quota (cfg : Quota.Config)
  | slidingWindowLog (cfg : SlidingWindowLog.Config)

namespace Policy

/-- The state of a strategy. -/
abbrev State : Policy → Type
  | .gcra _ => ℚ
  | .tokenBucket _ => TokenBucket.State
  | .fixedWindow _ => FixedWindow.State
  | .quota _ => Quota.State
  | .slidingWindowLog _ => List ℚ

/-- Its transition. -/
def check [Rounding] : (m : Policy) → Option m.State → ℚ → ℚ → ApplyOutcome m.State Decision
  | .gcra cfg => Gcra.check cfg
  | .tokenBucket cfg => TokenBucket.check cfg
  | .fixedWindow cfg => FixedWindow.check cfg
  | .quota cfg => Quota.check cfg
  | .slidingWindowLog cfg => SlidingWindowLog.check cfg

/-- The reply to a check is that of exact arithmetic. -/
def AsExact [Rounding] (m : Policy) (state : Option m.State) (now cost : ℚ) : Prop :=
  (m.check state now cost).result = (@check exact m state now cost).result

instance AsExact.decidable [Rounding] (m : Policy) (state : Option m.State) (now cost : ℚ) :
    Decidable (m.AsExact state now cost) :=
  inferInstanceAs (Decidable (_ = _))

instance (m : Policy) (state : Option m.State) (now cost : ℚ) :
    Decidable (@AsExact doubles m state now cost) := @AsExact.decidable doubles m state now cost

/-- The calendar of a quota is in range. -/
def InRange : Policy → ℚ → Prop
  | .quota cfg, now => cfg.resetCadence.InRange now
  | _, _ => True

/-- The state is one a check at `now` may rely on: the bucket was counted by then, the stamps of the
log are in order up to then. -/
def Settled : (m : Policy) → Option m.State → ℚ → Prop
  | .gcra _, _, _ => True
  | .tokenBucket _, state, now => ∀ s ∈ state, s.last ≤ now
  | .fixedWindow _, _, _ => True
  | .quota _, _, _ => True
  | .slidingWindowLog _, state, now => ∀ log ∈ state, SlidingWindowLog.Ordered log now

/-- The strategies whose capacity comes back unit by unit. -/
def Paced : Policy → Prop
  | .gcra _ => True
  | .tokenBucket _ => True
  | _ => False

/-- What a strategy serves settles its state at the time of the call. -/
theorem settled_served [Rounding] (m : Policy) (state : Option m.State) (call : Call)
    (h : m.Settled state call.now) : m.Settled (served m.check state call).1 call.now := by
  cases m with
  | gcra cfg => trivial
  | fixedWindow cfg => trivial
  | quota cfg => trivial
  | tokenBucket cfg =>
    rw [served]
    dsimp only
    split
    · rename_i hpersist
      exact fun s hs => (TokenBucket.state_of_persist hpersist hs).2.1.le
    · exact h
  | slidingWindowLog cfg =>
    rw [served]
    dsimp only
    split
    · rename_i hpersist
      intro log hlog
      have hlive : SlidingWindowLog.Ordered (SlidingWindowLog.survivors cfg state call.now)
          call.now := SlidingWindowLog.Ordered.survivors h
      refine ⟨?_, (SlidingWindowLog.le_of_persist (fun log' hlog' => (h log' hlog').2) hpersist
        hlog).1⟩
      obtain rfl := SlidingWindowLog.eq_of_persist hpersist hlog
      rw [List.pairwise_append]
      refine ⟨hlive.1, List.pairwise_replicate.mpr (.inr le_rfl), fun a ha b hb => ?_⟩
      rw [List.eq_of_mem_replicate hb]
      exact hlive.2 a ha
    · exact h

/-- **Checks in the order of their times leave settled states.** -/
theorem settled_of_sorted [Rounding] (m : Policy) {calls : List Call} {now : ℚ}
    (hsorted : calls.Pairwise fun call call' => call.now ≤ call'.now)
    (hle : ∀ call ∈ calls, call.now ≤ now) :
    m.Settled (after (served m.check) none calls) now := by
  have hmono : ∀ {t t' : ℚ} {state : Option m.State}, t ≤ t' → m.Settled state t →
      m.Settled state t' := by
    intro t t' state htt h
    cases m with
    | gcra cfg => trivial
    | fixedWindow cfg => trivial
    | quota cfg => trivial
    | tokenBucket cfg => exact fun s hs => (h s hs).trans htt
    | slidingWindowLog cfg =>
      exact fun log hlog => ⟨(h log hlog).1, fun t ht => ((h log hlog).2 t ht).trans htt⟩
  have hnone : ∀ t, m.Settled none t := by
    intro t
    cases m <;> simp [Settled]
  cases calls with
  | nil => exact hnone now
  | cons call calls =>
    refine after_of_sorted Call.now (I := fun t state => m.Settled state t) hmono
      m.settled_served _ (hnone call.now) (hle call List.mem_cons_self)
      (fun c hc => ⟨?_, hle c hc⟩) hsorted
    rcases List.mem_cons.mp hc with rfl | hmem
    · exact le_rfl
    · exact (List.pairwise_cons.mp hsorted).1 c hmem

/-- A denied check keeps nothing. -/
theorem keeps [Rounding] (m : Policy) (state : Option m.State) (now cost : ℚ)
    (h : (m.check state now cost).result.allowed = false) :
    (m.check state now cost).persist = false := by
  cases m with
  | gcra cfg => exact Gcra.keeps cfg state now cost h
  | tokenBucket cfg => exact TokenBucket.keeps cfg state now cost h
  | fixedWindow cfg => exact FixedWindow.keeps cfg state now cost h
  | quota cfg => exact Quota.keeps cfg state now cost h
  | slidingWindowLog cfg => exact SlidingWindowLog.keeps cfg state now cost h

/-- Exact arithmetic keeps the promise. -/
theorem honest_exact (m : Policy) {state : Option m.State} {now cost : ℚ}
    (hadm : (m.check none now cost).result.allowed = true) (hsettled : m.Settled state now)
    (hrange : m.InRange now) : Honest m.check state now cost := by
  cases m with
  | gcra cfg => exact Gcra.honest cfg hadm
  | tokenBucket cfg => exact TokenBucket.honest cfg hsettled hadm
  | fixedWindow cfg => exact FixedWindow.honest cfg hadm
  | quota cfg => exact Quota.honest cfg hrange hadm
  | slidingWindowLog cfg => exact SlidingWindowLog.honest cfg hsettled hadm

theorem tight_exact (m : Policy) (hpaced : m.Paced) (state : Option m.State) (now cost : ℚ) :
    Tight m.check state now cost := by
  cases m with
  | gcra cfg => exact Gcra.tight cfg state now cost
  | tokenBucket cfg => exact TokenBucket.tight cfg state now cost
  | fixedWindow cfg => exact hpaced.elim
  | quota cfg => exact hpaced.elim
  | slidingWindowLog cfg => exact hpaced.elim

/-- A single denied check is a run of which none is admitted. -/
theorem noneAdmitted_singleton {S : Type} {check : Option S → ℚ → ℚ → ApplyOutcome S Decision}
    {state : Option S} {now cost : ℚ} (h : (check state now cost).result.allowed = false) :
    NoneAdmitted check state [⟨now, cost⟩] := by
  intro d hd
  rw [List.mem_singleton.mp hd]
  exact h

/-- **A denial says how long to wait**, where rounding changes no reply. A cost that an empty state
admits is admitted after the `retryAfterMs` of its denial, in a settled state and in the range of
the calendar; and where capacity comes back unit by unit, no whole millisecond earlier, in any
state. -/
theorem retryAfterMs_honest [Rounding] (m : Policy) {state : Option m.State} {now cost : ℚ}
    (hnone : m.AsExact none now cost) (hnow : m.AsExact state now cost)
    (hadm : (m.check none now cost).result.allowed = true) :
    (m.Settled state now → m.InRange now →
      m.AsExact state (now + (m.check state now cost).result.retryAfterMs) cost →
        Honest m.check state now cost) ∧
      (m.Paced → (∀ ms : ℕ, (ms : ℚ) < (m.check state now cost).result.retryAfterMs →
        m.AsExact state (now + ms) cost) → Tight m.check state now cost) := by
  rw [AsExact] at hnone hnow
  have hafter : after (served (@check exact m)) state [⟨now, cost⟩] = state ∨
      (@check exact m state now cost).result.allowed = true := by
    cases hdenied : (@check exact m state now cost).result.allowed with
    | true => exact .inr rfl
    | false =>
      exact .inl (after_of_noneAdmitted (@keeps exact m) _ (noneAdmitted_singleton hdenied))
  constructor
  · intro hsettled hrange hlater
    refine honest_of_state m.keeps fun h => ?_
    rw [hnow] at h hlater ⊢
    have hexact := honest_exact m (by rw [← hnone]; exact hadm) hsettled hrange h []
      (noneAdmitted_singleton h)
    rw [hafter.resolve_right (by rw [h]; exact Bool.false_ne_true)] at hexact
    rw [hlater]
    exact hexact
  · intro hpaced hearlier
    refine tight_of_state m.keeps fun h ms hms => ?_
    rw [hearlier ms hms]
    rw [hnow] at h hms
    have hexact := tight_exact m hpaced state now cost h [] (noneAdmitted_singleton h) ms hms
    rwa [hafter.resolve_right (by rw [h]; exact Bool.false_ne_true)] at hexact

/-! ### Runs -/

/-- Three units a second, two at once. -/
def threePerSecond : Gcra.Config where
  limit := 3
  periodMs := 1000
  burst := 2
  limit_pos := three_pos
  periodMs_pos := second_pos
  one_le_burst := one_le_pair

/-- A unit every 128 ms, two at once. -/
def onePer128 : Gcra.Config where
  limit := 1
  periodMs := 128
  burst := 2
  limit_pos := one_pos
  periodMs_pos := by norm_num
  one_le_burst := one_le_pair

/-- The bucket of the same rate. -/
def bucketPer128 : TokenBucket.Config where
  capacity := 2
  refillPerSec := 125 / 16
  capacity_pos := pair_pos
  refillPerSec_pos := by norm_num

/-- Fifty tokens, nine a second. -/
def fiftyAtNine : TokenBucket.Config where
  capacity := 50
  refillPerSec := 9
  capacity_pos := by norm_num
  refillPerSec_pos := by norm_num

/-- Two tokens, ten a second. -/
def pairAtTen : TokenBucket.Config where
  capacity := 2
  refillPerSec := 10
  capacity_pos := pair_pos
  refillPerSec_pos := ten_pos

/-- Two units a second, in a window of the clock. -/
def pairPerWindow : FixedWindow.Config where
  limit := 2
  windowMs := 1000
  limit_pos := pair_pos
  windowMs_pos := second_pos

/-- Two units a month. -/
def pairPerMonth : Quota.Config where
  limit := 2
  resetCadence := .calendar .month 0 1
  limit_pos := pair_pos

/-- Two units in any second. -/
def pairInSecond : SlidingWindowLog.Config where
  limit := 2
  windowMs := 1000
  limit_pos := pair_pos
  windowMs_pos := second_pos

theorem one_le_two_buckets : 1 ≤ 2 := by decide

/-- Two units in a rolling second of two buckets. -/
def rollingPair : SlidingWindow.Config where
  limit := 2
  windowMs := 1000
  buckets := 2
  limit_pos := pair_pos
  windowMs_pos := second_pos
  one_le_buckets := one_le_two_buckets

instance {S : Type} (check : Option S → ℚ → ℚ → ApplyOutcome S Decision) (state : Option S)
    (calls : List Call) : Decidable (NoneAdmitted check state calls) :=
  inferInstanceAs (Decidable (∀ d ∈ answers (served check) state calls, d.allowed = false))

/-- What two units at 100 leave. -/
def usedAt100 [Rounding] (m : Policy) : Option m.State := after (served m.check) none [⟨100, 2⟩]

theorem settled_usedAt100 [Rounding] (m : Policy) : m.Settled m.usedAt100 150 :=
  settled_of_sorted m (List.pairwise_singleton _ _) (by decide +kernel)

/-- Two units are admitted at 100, a third one is denied at 150. -/
theorem retryAfterMs_honest_at_150 :
    (Honest (@check doubles (gcra onePer128)) (@usedAt100 doubles _) 150 1 ∧
      Tight (@check doubles (gcra onePer128)) (@usedAt100 doubles _) 150 1) ∧
    (Honest (@check doubles (tokenBucket bucketPer128)) (@usedAt100 doubles _) 150 1 ∧
      Tight (@check doubles (tokenBucket bucketPer128)) (@usedAt100 doubles _) 150 1) ∧
    Honest (@check doubles (fixedWindow pairPerWindow)) (@usedAt100 doubles _) 150 1 ∧
    Honest (@check doubles (quota pairPerMonth)) (@usedAt100 doubles _) 150 1 ∧
    Honest (@check doubles (slidingWindowLog pairInSecond)) (@usedAt100 doubles _) 150 1 := by
  have hgcra := @retryAfterMs_honest doubles (gcra onePer128) (@usedAt100 doubles _) 150 1
    (by decide +kernel) (by decide +kernel) (by decide +kernel)
  have hbucket := @retryAfterMs_honest doubles (tokenBucket bucketPer128) (@usedAt100 doubles _)
    150 1 (by decide +kernel) (by decide +kernel) (by decide +kernel)
  have hretry : (@check doubles (gcra onePer128) (@usedAt100 doubles _) 150 1).result.retryAfterMs
      = 78 ∧ (@check doubles (tokenBucket bucketPer128) (@usedAt100 doubles _) 150
        1).result.retryAfterMs = 78 := by
    decide +kernel
  have hearlier : ∀ ms : ℕ, ms < 78 →
      @AsExact doubles (gcra onePer128) (@usedAt100 doubles _) (150 + ms) 1 ∧
      @AsExact doubles (tokenBucket bucketPer128) (@usedAt100 doubles _) (150 + ms) 1 := by
    decide +kernel
  refine ⟨⟨hgcra.1 trivial trivial (by decide +kernel), hgcra.2 trivial fun ms hms => ?_⟩,
    ⟨hbucket.1 (@settled_usedAt100 doubles _) trivial (by decide +kernel),
      hbucket.2 trivial fun ms hms => ?_⟩,
    (@retryAfterMs_honest doubles (fixedWindow pairPerWindow) (@usedAt100 doubles _) 150 1
      (by decide +kernel) (by decide +kernel) (by decide +kernel)).1 trivial trivial
      (by decide +kernel),
    (@retryAfterMs_honest doubles (quota pairPerMonth) (@usedAt100 doubles _) 150 1
      (by decide +kernel) (by decide +kernel) (by decide +kernel)).1 trivial
      (show _ → _ from fun _ => by decide +kernel) (by decide +kernel),
    (@retryAfterMs_honest doubles (slidingWindowLog pairInSecond) (@usedAt100 doubles _) 150 1
      (by decide +kernel) (by decide +kernel) (by decide +kernel)).1
      (@settled_usedAt100 doubles _) trivial (by decide +kernel)⟩
  · rw [hretry.1] at hms
    exact (hearlier ms (by exact_mod_cast hms)).1
  · rw [hretry.2] at hms
    exact (hearlier ms (by exact_mod_cast hms)).2

/-- A rolling quota names the end of the bucket, when what it counts is still in the window. A token
bucket, or a log, that was used at a later reading of the clock names a time that is too early. And
on doubles a bucket may name a time at which it computes as short of the cost, or a time that is a
millisecond late. -/
theorem not_retryAfterMs_honest :
    (¬ ∀ (cfg : SlidingWindow.Config) (calls : List Call) (now cost : ℚ),
      ((@Quota.rolling doubles cfg).check none now cost).result.allowed = true →
        Honest (@Quota.rolling doubles cfg).check
          (after (served (@Quota.rolling doubles cfg).check) none calls) now cost) ∧
    (¬ ∀ (cfg : TokenBucket.Config) (calls : List Call) (now cost : ℚ),
      (@TokenBucket.check doubles cfg none now cost).result.allowed = true →
        Honest (@TokenBucket.check doubles cfg)
          (after (served (@TokenBucket.check doubles cfg)) none calls) now cost) ∧
    (¬ ∀ (cfg : SlidingWindowLog.Config) (calls : List Call) (now cost : ℚ),
      (@SlidingWindowLog.check doubles cfg none now cost).result.allowed = true →
        Honest (@SlidingWindowLog.check doubles cfg)
          (after (served (@SlidingWindowLog.check doubles cfg)) none calls) now cost) ∧
    (¬ ∀ (cfg : TokenBucket.Config) (now cost : ℚ),
      (@TokenBucket.check doubles cfg none now cost).result.allowed = true →
        Honest (@TokenBucket.check doubles cfg)
          (after (served (@TokenBucket.check doubles cfg)) none [⟨0, cfg.capacity⟩]) now cost) ∧
    ¬ ∀ (cfg : TokenBucket.Config) (now cost : ℚ),
      (@TokenBucket.check doubles cfg none now cost).result.allowed = true →
        Tight (@TokenBucket.check doubles cfg)
          (after (served (@TokenBucket.check doubles cfg)) none [⟨0, cfg.capacity⟩]) now cost :=
  ⟨fun h => absurd (h rollingPair [⟨100, 2⟩] 150 1 (by decide +kernel) (by decide +kernel) []
      (by decide +kernel)) (by decide +kernel),
    fun h => absurd (h TokenBucket.pairPerSecond [⟨10000, 2⟩] 5000 1 (by decide +kernel)
      (by decide +kernel) [] (by decide +kernel)) (by decide +kernel),
    fun h => absurd (h pairInSecond [⟨10000, 1⟩, ⟨9500, 1⟩] 9400 2 (by decide +kernel)
      (by decide +kernel) [] (by decide +kernel)) (by decide +kernel),
    fun h => absurd (h fiftyAtNine 0 27 (by decide +kernel) (by decide +kernel) []
      (by decide +kernel)) (by decide +kernel),
    fun h => absurd (h pairAtTen 99 1 (by decide +kernel) (by decide +kernel) []
      (by decide +kernel) 1 (by decide +kernel)) (by decide +kernel)⟩

end Policy

end ThrottleKit
