import ThrottleKit.Algorithms.Conformance
import ThrottleKit.Core.Limiter
import ThrottleKit.Redis.Script

/-!
# An algorithm and its script

An algorithm that runs in process and as a Redis script has two forms that keep the same state.
They are given the same calls, the script with the time as an argument or from the server's clock;
its key expires on that clock. The replies of the script are rounded in places where the decisions
in process are not.

Two conditions are kept apart. The *state* stays the same as long as the script goes by the time of
the call, its key has not expired while it matters, and no more has the entry in process. The
*replies* are then the decisions just where each is rounded to itself.

Where numbers are exact and there is one clock, no key expires while it matters. In doubles a window
may end before the instant its own end is rounded to, and either store may then drop a count that
still counts.

## Main definitions

* `Timed` — a call as both forms see it
* `Kept`, `Held` — the condition on the state, in Redis and in process
* `Twin` — two forms that keep the same state, and the condition on which a reply is the decision

## Main results

* `Twin.answers_eq_iff` — the replies are the decisions just where they are rounded to themselves
* `kept_of_oneClock` — on one clock, in exact numbers, no key expires while it matters
-/

namespace ThrottleKit

open Lockstep Redis

/-- A call of one key, with the clock of the server and the first argument of the script. -/
structure Timed where
  server : ℤ
  nowArg : ℚ
  call : Call

/-- The run of the script. -/
def Timed.eval (t : Timed) : Eval := ⟨t.server, t.nowArg, t.call.cost⟩

variable {S V : Type}

/-- The calls of a script. -/
def scripted (script : Option V → ℚ → ℚ → ApplyOutcome V Decision) :
    Service (Option (Key V)) Timed (Option Decision) := fun key t => runScript script key t.eval

/-- A call of a script that goes by the time of the call. -/
theorem scripted_eq {script : Option V → ℚ → ℚ → ApplyOutcome V Decision} {key : Option (Key V)}
    {t : Timed} (hnow : t.eval.now = t.call.now) {out : ApplyOutcome V Decision}
    (hout : script (read key t.server) t.call.now t.call.cost = out) :
    scripted script key t
      = (if out.persist then out.state.map fun v => writePx t.server v ⌊out.ttlMs⌋ else key,
        longLongs out.result) := by
  rw [← hout, ← hnow]
  rfl

/-- The one key there is. -/
def theKey : String := "k"

/-- The calls in process, on a store whose entries expire. -/
def inProcess [Rounding] (check : Option S → ℚ → ℚ → ApplyOutcome S Decision) :
    Service (Entries S) Timed Decision := fun e t =>
  e.applySync theKey (fun state => check state t.call.now t.call.cost) t.call.now

/-- The script goes by the time of the call, and the key has not expired while it matters. -/
def Kept (Stale : V → ℚ → Prop) (key : Option (Key V)) (t : Timed) : Prop :=
  t.eval.now = t.call.now ∧
    ∀ k ∈ key, k.live t.server = false → Stale k.value t.call.now

instance (Stale : V → ℚ → Prop) [∀ v now, Decidable (Stale v now)] (key : Option (Key V))
    (t : Timed) : Decidable (Kept Stale key t) :=
  inferInstanceAs (Decidable (_ ∧ _))

/-- The entry in process has not expired while it matters. -/
def Held (Stale : S → ℚ → Prop) (e : Entries S) (t : Timed) : Prop :=
  ∀ entry ∈ e theKey, entry.2 ≤ t.call.now → Stale entry.1 t.call.now

instance (Stale : S → ℚ → Prop) [∀ s now, Decidable (Stale s now)] (e : Entries S) (t : Timed) :
    Decidable (Held Stale e t) :=
  inferInstanceAs (Decidable (∀ entry ∈ e theKey, _ → _))

/-! ### One clock -/

/-- The server's clock is the one the times are read from, whether the server reads it or the
caller. -/
structure OneClock (t : Timed) : Prop where
  server : t.server = ⌊t.call.now⌋
  nowArg : t.nowArg = t.call.now ∨ t.nowArg = 0 ∧ Whole t.call.now

/-- Zero asks for the clock of the server, which then reads zero as well. -/
theorem OneClock.now_eq {t : Timed} (h : OneClock t) : t.eval.now = t.call.now := by
  show luaNow t.server t.nowArg = t.call.now
  rw [luaNow, h.server]
  rcases h.nowArg with harg | ⟨harg, hwhole⟩
  · rw [harg]
    split
    · rename_i hzero
      rw [hzero, Int.floor_zero, Int.cast_zero]
    · rfl
  · rw [harg, if_pos rfl]
    exact hwhole

/-- The record of a key holds a value that is good by `now`, and that matters no longer once the key
has died. -/
def Recorded (Stale : V → ℚ → Prop) (at_ : ℚ → Prop) (good : ℚ → V → Prop) (now : ℚ)
    (key : Option (Key V)) : Prop :=
  ∀ k ∈ key, good now k.value ∧ ∃ (t₀ : ℚ) (ttl : ℤ), k.diesAt = some (⌊t₀⌋ + ttl) ∧
    ∀ t, at_ t → t₀ + ttl ≤ t → Stale k.value t

/-- **On one clock no key expires while it matters**, when what a script writes does not matter from
the end of its TTL on. `good now v` is what is known of the values that calls up to `now` leave. -/
theorem kept_of_oneClock {script : Option V → ℚ → ℚ → ApplyOutcome V Decision}
    {Stale : V → ℚ → Prop} (at_ : ℚ → Prop) (good : ℚ → V → Prop)
    (hmono : ∀ {now now' v}, now ≤ now' → good now v → good now' v)
    (hdue : ∀ v now cost v', at_ now → (∀ u ∈ v, good now u) →
      (script v now cost).persist = true → (script v now cost).state = some v' →
        good now v' ∧ Whole (script v now cost).ttlMs ∧
          ∀ t, at_ t → now + (script v now cost).ttlMs ≤ t → Stale v' t)
    {ts : List Timed} (hsorted : ts.Pairwise fun t t' => t.call.now ≤ t'.call.now)
    (hclock : ∀ t ∈ ts, OneClock t ∧ at_ t.call.now) :
    AllMet (scripted script) (Kept Stale) none ts := by
  obtain ⟨start, hstart⟩ : ∃ start, ∀ t ∈ ts, start ≤ t.call.now :=
    ⟨earliest 0 (ts.map Timed.call), fun t ht =>
      (earliest_le _ _).2 _ (List.mem_map_of_mem ht)⟩
  have hrecorded : ∀ {now now' key}, now ≤ now' → Recorded Stale at_ good now key →
      Recorded Stale at_ good now' key := fun hle h k hk => ⟨hmono hle (h k hk).1, (h k hk).2⟩
  refine allMet_of_sorted (fun t : Timed => t.call.now) (I := Recorded Stale at_ good)
    (p := fun t => OneClock t ∧ at_ t.call.now) hrecorded ?_ ts start (by simp [Recorded])
    (fun t ht => ⟨hstart t ht, hclock t ht⟩) hsorted
  rintro key t hkey ⟨hone, hat⟩
  refine ⟨⟨hone.now_eq, fun k hk hdead => ?_⟩, fun k hk => ?_⟩
  · obtain ⟨-, t₀, ttl, hdies, hstale⟩ := hkey k hk
    refine hstale _ hat ?_
    rw [Key.live, hdies, hone.server] at hdead
    have hlt : ⌊t₀⌋ + ttl < ⌊t.call.now⌋ := not_le.mp (of_decide_eq_false hdead)
    have hstep : ((⌊t₀⌋ + ttl + 1 : ℤ) : ℚ) ≤ ⌊t.call.now⌋ := Int.cast_le.mpr hlt
    push_cast at hstep
    linarith [Int.lt_floor_add_one t₀, Int.floor_le t.call.now]
  · have hread : ∀ u ∈ read key t.server, good t.call.now u := by
      intro u hu
      obtain ⟨k', hk', -, rfl⟩ := read_eq_some hu
      exact (hkey k' hk').1
    have hscript : (scripted script key t).1 = if (script (read key t.server) t.eval.now
        t.call.cost).persist then (script (read key t.server) t.eval.now t.call.cost).state.map
          fun v => writePx t.server v ⌊(script (read key t.server) t.eval.now t.call.cost).ttlMs⌋
        else key := rfl
    rw [hscript, hone.now_eq] at hk
    split at hk
    · rename_i hpersist
      obtain ⟨v, hv, rfl⟩ := Option.map_eq_some_iff.mp hk
      obtain ⟨hgood, hwhole, hstale⟩ := hdue _ _ _ _ hat hread hpersist hv
      refine ⟨hgood, t.call.now, _, by rw [← hone.server]; rfl, fun t' hat' hle => ?_⟩
      refine hstale t' hat' ?_
      rwa [show ((⌊_⌋ : ℤ) : ℚ) = _ from hwhole] at hle
    · exact hkey k hk

/-! ### Twins -/

/-- Two forms that keep the same state. -/
structure Twin (S : Type) where
  check : Option S → ℚ → ℚ → ApplyOutcome S Decision
  script : Option S → ℚ → ℚ → ApplyOutcome S Decision
  /-- The state matters no longer. -/
  Stale : S → ℚ → Prop
  /-- The reply of a call that finds this state is rounded to the decision. -/
  Rounds : Option S → ℚ → ℚ → Prop
  script_persist : ∀ v now cost, (script v now cost).persist = (check v now cost).persist
  script_state : ∀ v now cost, (script v now cost).state = (check v now cost).state
  sameAt : ∀ s now, Stale s now → SameAt check now (some s) none
  reply_iff : ∀ v now cost,
    longLongs (script v now cost).result = some (check v now cost).result ↔ Rounds v now cost

namespace Twin

variable (w : Twin S)

/-- The reply to the call is rounded to the decision. -/
def RoundsAt (key : Option (Key S)) (t : Timed) : Prop :=
  w.Rounds (read key t.server) t.call.now t.call.cost

/-- The record of the key holds the state in process. -/
def Same (key : Option (Key S)) (e : Entries S) : Prop :=
  key.map Key.value = (e theKey).map Prod.fst

variable {w} {key : Option (Key S)} {e : Entries S} {t : Timed}

/-- What the script finds acts as what is found in process. -/
theorem sameAt_read (h : Same key e) (hkept : Kept w.Stale key t) (hheld : Held w.Stale e t) :
    SameAt w.check t.call.now (e.pending theKey t.call.now) (read key t.server) := by
  unfold Same at h
  cases hentry : e theKey with
  | none =>
    rw [hentry, Option.map_none, Option.map_eq_none_iff] at h
    rw [h, Entries.pending, hentry]
    exact fun _ => rfl
  | some entry =>
    rw [hentry, Option.map_some] at h
    obtain ⟨k, rfl, hvalue⟩ := Option.map_eq_some_iff.mp h
    have hpending : e.pending theKey t.call.now
        = if entry.2 ≤ t.call.now then none else some entry.1 := by
      rw [Entries.pending, hentry, Option.bind_some]
    have hread : read (some k) t.server = if k.live t.server then some k.value else none := rfl
    rw [hpending, hread, hvalue]
    refine sameAt_of_spent (s := entry.1) (by split <;> simp) (by split <;> simp) fun hnone => ?_
    refine w.sameAt _ _ ?_
    rcases hnone with hdue | hdead
    · refine hheld entry hentry ?_
      by_contra hlt
      rw [if_neg hlt] at hdue
      cases hdue
    · rw [← hvalue]
      refine hkept.2 k rfl ?_
      cases hlive : k.live t.server with
      | false => rfl
      | true => simp [hlive] at hdead

variable [Rounding]

/-- **One call of both forms.** -/
theorem step (h : Same key e) (hkept : Kept w.Stale key t) (hheld : Held w.Stale e t) :
    ((scripted w.script key t).2 = some (inProcess w.check e t).2 ↔ w.RoundsAt key t) ∧
      Same (scripted w.script key t).1 (inProcess w.check e t).1 := by
  have hsame := sameAt_read h hkept hheld
  have hresult : (inProcess w.check e t).2
      = (w.check (read key t.server) t.call.now t.call.cost).result := by
    rw [← hsame.result_eq t.call.cost]
    exact Entries.applySync_snd
  rw [scripted_eq hkept.1 rfl, hresult]
  refine ⟨w.reply_iff _ _ _, ?_⟩
  dsimp only
  rw [w.script_persist, w.script_state, Same, inProcess]
  cases hpersist : (w.check (read key t.server) t.call.now t.call.cost).persist with
  | true =>
    obtain ⟨hpersist', hstate, -⟩ := hsame.written_eq hpersist
    rw [Entries.applySync_of_persist_rounded hpersist', Function.update_self, hstate, if_pos rfl,
      Option.map_map, Option.map_map]
    rfl
  | false =>
    have hpersist' := (hsame.persist_eq t.call.cost).trans hpersist
    rw [Entries.applySync_of_not_persist hpersist']
    exact h

/-- **The replies are the decisions just where they are rounded to themselves.** -/
theorem answers_eq_iff (w : Twin S) {ts : List Timed}
    (hkept : AllMet (scripted w.script) (Kept w.Stale) none ts)
    (hheld : AllMet (inProcess w.check) (Held w.Stale) .empty ts) :
    answers (scripted w.script) none ts = (answers (inProcess w.check) .empty ts).map some ↔
      AllMet (scripted w.script) w.RoundsAt none ts := by
  have hstep : ∀ key e t, Same key e → Kept w.Stale key t → Held w.Stale e t →
      ((scripted w.script key t).2 = some (inProcess w.check e t).2 ↔ w.RoundsAt key t) ∧
        Same (scripted w.script key t).1 (inProcess w.check e t).1 :=
    fun key e t h hok hok' => step h hok hok'
  exact answers_eq_map_iff hstep ts rfl hkept hheld

end Twin

end ThrottleKit
