import ThrottleKit.Algorithms.RetryAfter
import ThrottleKit.Algorithms.ScriptForms
import ThrottleKit.Algorithms.SlidingWindowNaive

/-!
# Replies against decisions

The fixed window, the quota with all its cadences and GCRA: their scripts keep the state that is
kept in process, whatever the parameters. What they reply is the decision in process just where the
limit is whole, the end of the window is whole, and 64 bits hold the numbers; a fraction of a limit
is dropped from the reply only, and the end of a window is rounded down where it is rounded up in
process.

A rolling quota is a sliding window, whose script keeps another state than the ring in process. The
two count the same for the ticks in the window and for the later ones.

## Main definitions

* `SlidingWindow.luaScript` — the script of a rolling quota
* `SlidingWindow.Matches` — what its hash has to do with the ring
* `Scripted` — the algorithms, with `Scripted.Kept`, `Scripted.Held` and `Scripted.Rounds`

## Main results

* `replies_eq_decisions_iff` — the replies are the decisions just where they are rounded to them
* `SlidingWindow.kept_of_oneClock` — on one clock, in exact numbers, no hash expires while it
  matters
* `not_replies_eq_decisions` — not for every parameter
-/

namespace ThrottleKit

open Lockstep Redis Rounding

namespace SlidingWindow

/-- The hash of a key that is not there. -/
def noHash : Hash := fun _ => none

/-- `SLIDING_WINDOW_LUA`: the hash it leaves, how long it lives, and the reply. -/
def luaScript [Rounding] (cfg : Config) (hash : Option Hash) (now cost : ℚ) :
    ApplyOutcome Hash Decision :=
  let h := hash.getD noHash
  let d := decideBy cfg (luaFull cfg h now) (luaOldest cfg h now) now cost
  if d.allowed then
    { state := some (luaBumped cfg h (tick cfg now) cost)
      result := reply d
      ttlMs := ⌈fl (cfg.windowMs + cfg.w)⌉
      persist := true }
  else
    { state := hash
      result := reply d
      ttlMs := ⌈fl (cfg.windowMs + cfg.w)⌉
      persist := false }

/-- Nothing that is counted is in the window. -/
def Empty [Rounding] (cfg : Config) (count : ℤ → ℚ) (now : ℚ) : Prop :=
  ∀ k ∈ List.range (cfg.buckets + 1), count (tick cfg now - cfg.buckets + (k : ℕ)) = 0

instance Empty.decidable [Rounding] (cfg : Config) (count : ℤ → ℚ) (now : ℚ) :
    Decidable (Empty cfg count now) :=
  inferInstanceAs (Decidable (∀ k ∈ List.range _, _ = _))

/-- Nothing that the hash counts is in the window. -/
def Stale [Rounding] (cfg : Config) (h : Hash) (now : ℚ) : Prop := Empty cfg (luaCountAt cfg h) now

/-- Nothing that the ring counts is in the window. -/
def RingStale [Rounding] (cfg : Config) (ring : State) (now : ℚ) : Prop :=
  Empty cfg (countAt cfg ring) now

instance Stale.decidable [Rounding] (cfg : Config) (h : Hash) (now : ℚ) :
    Decidable (Stale cfg h now) :=
  inferInstanceAs (Decidable (Empty _ _ _))

instance RingStale.decidable [Rounding] (cfg : Config) (ring : State) (now : ℚ) :
    Decidable (RingStale cfg ring now) :=
  inferInstanceAs (Decidable (Empty _ _ _))

/-- What the check would bring the window to. -/
def projectedOf [Rounding] (cfg : Config) (full oldest now cost : ℚ) : ℚ :=
  fl (fl (full + fl (oldest * weight cfg now)) + cost)

/-- The end of the window that the reply names. -/
def resetOf [Rounding] (cfg : Config) (now : ℚ) : ℚ :=
  fl (fl ((tick cfg now + 1) * cfg.w) + cfg.windowMs)

/-- What is left, by what the ring counts. -/
def leftOf [Rounding] (cfg : Config) (full oldest now cost : ℚ) : ℚ :=
  if projectedOf cfg full oldest now cost ≤ cfg.limit then
    fl (cfg.limit - projectedOf cfg full oldest now cost)
  else fl (cfg.limit - fl (full + fl (oldest * weight cfg now)))

/-- The time a check has to wait, by what the ring counts. -/
def waitOf [Rounding] (cfg : Config) (full oldest now cost : ℚ) : ℚ :=
  if projectedOf cfg full oldest now cost ≤ cfg.limit then 0
  else
    let D := fl (projectedOf cfg full oldest now cost - cfg.limit)
    if 0 < oldest ∧ D ≤ fl (oldest * weight cfg now) then max 1 ⌈fl (fl (D * cfg.w) / oldest)⌉
    else max 1 ⌈fl (fl ((tick cfg now + 1) * cfg.w) - now)⌉

/-- The reply to a check that counts so much is rounded to its decision. -/
def RoundsBy [Rounding] (cfg : Config) (full oldest now cost : ℚ) : Prop :=
  (Whole cfg.limit ∧ Fits cfg.limit) ∧ Fits (max 0 ⌊leftOf cfg full oldest now cost⌋) ∧
    Fits ⌈resetOf cfg now⌉ ∧ Fits (waitOf cfg full oldest now cost)

/-- The reply to a check that finds `hash` is rounded to its decision. -/
def Rounds [Rounding] (cfg : Config) (hash : Option Hash) (now cost : ℚ) : Prop :=
  RoundsBy cfg (luaFull cfg (hash.getD noHash) now) (luaOldest cfg (hash.getD noHash) now) now cost

instance Rounds.decidable [Rounding] (cfg : Config) (hash : Option Hash) (now cost : ℚ) :
    Decidable (Rounds cfg hash now cost) :=
  inferInstanceAs (Decidable (_ ∧ _ ∧ _ ∧ Fits _))

section Decisions

variable [Rounding] {cfg : Config} {full oldest now cost : ℚ}

theorem decideBy_eq : decideBy cfg full oldest now cost
    = ⟨decide (projectedOf cfg full oldest now cost ≤ cfg.limit), cfg.limit,
        max 0 ⌊leftOf cfg full oldest now cost⌋, ⌈resetOf cfg now⌉,
        waitOf cfg full oldest now cost⟩ := by
  unfold decideBy leftOf waitOf
  dsimp only
  by_cases hfits : projectedOf cfg full oldest now cost ≤ cfg.limit
  · rw [if_pos hfits, if_pos hfits, decide_eq_true hfits]
    exact if_pos hfits
  · rw [if_neg hfits, if_neg hfits, decide_eq_false hfits]
    refine (if_neg hfits).trans ?_
    congr 1
    show max (1 : ℚ) ((if _ then _ else _ : ℤ) : ℚ) = _
    rw [projectedOf]
    split <;> rfl

/-- When the reply of the script is its decision. -/
theorem longLongs_reply_iff :
    longLongs (reply (decideBy cfg full oldest now cost))
        = some (decideBy cfg full oldest now cost) ↔ RoundsBy cfg full oldest now cost := by
  rw [decideBy_eq]
  have hreply := @longLongs_eq_some_iff (decide (projectedOf cfg full oldest now cost ≤ cfg.limit))
    cfg.limit (max 0 ⌊leftOf cfg full oldest now cost⌋) ⌈resetOf cfg now⌉ ⌈resetOf cfg now⌉
    (waitOf cfg full oldest now cost)
  rw [luaInteger_intCast] at hreply
  exact hreply.trans (and_congr_right fun _ => and_congr_right fun _ => and_congr_left fun _ =>
    and_iff_right rfl)

end Decisions

/-! ### Both forms of the sliding window -/

/-- The hash and the ring count the same for the ticks in the window of `now` and for the later
ones, and nothing for these. -/
structure Matches [Rounding] (cfg : Config) (now : ℚ) (hash : Option Hash) (ring : Option State) :
    Prop where
  same : ∀ idx, tick cfg now - cfg.buckets ≤ idx →
    luaCountAt cfg (hash.getD noHash) idx = countAt cfg (ring.getD .empty) idx
  later : ∀ idx, tick cfg now < idx → countAt cfg (ring.getD .empty) idx = 0

/-- The state is kept: the script goes by the time of the check and its key has not expired while it
matters, the check is not admitted before the epoch, and what it writes reads back. -/
def KeptAlike [Rounding] (cfg : Config) (key : Option (Key Hash)) (t : Timed) : Prop :=
  Kept (Stale cfg) key t ∧ (0 ≤ tick cfg t.call.now ∨ cfg.limit < fl t.call.cost) ∧
    ReadsBack cfg ((read key t.server).getD noHash) t.call

instance KeptAlike.decidable [Rounding] (cfg : Config) (key : Option (Key Hash)) (t : Timed) :
    Decidable (KeptAlike cfg key t) :=
  inferInstanceAs (Decidable (_ ∧ _))

section Matches

variable [Rounding] {cfg : Config} {now : ℚ} {hash : Option Hash} {ring : Option State}

theorem Matches.none (cfg : Config) (now : ℚ) : Matches cfg now none none where
  same idx _ := (countAt_empty idx).symm
  later idx _ := countAt_empty idx

theorem Matches.mono {now' : ℚ} (hle : now ≤ now') (h : Matches cfg now hash ring) :
    Matches cfg now' hash ring where
  same idx hidx := h.same idx ((sub_le_sub_right (tick_mono hle) _).trans hidx)
  later idx hidx := h.later idx ((tick_mono hle).trans_lt hidx)

/-- A window in which nothing is counted, and the ticks after it. -/
theorem Empty.eq_zero {count : ℤ → ℚ} (h : Empty cfg count now)
    (hlater : ∀ idx, tick cfg now < idx → count idx = 0) {idx : ℤ}
    (hidx : tick cfg now - cfg.buckets ≤ idx) : count idx = 0 := by
  rcases le_or_gt idx (tick cfg now) with hle | hlt
  · have hk : (idx - (tick cfg now - cfg.buckets)).toNat ∈ List.range (cfg.buckets + 1) :=
      List.mem_range.mpr (by omega)
    have hzero := h _ hk
    rwa [show tick cfg now - cfg.buckets + ((idx - (tick cfg now - cfg.buckets)).toNat : ℤ) = idx
      by omega] at hzero
  · exact hlater idx hlt

/-- What the script finds counts as what is found in process, whether it is still there or not. -/
theorem Matches.found {key : Option (Key Hash)} {e : Entries State} {t : Timed}
    (h : Matches cfg t.call.now (key.map Key.value) ((e theKey).map Prod.fst))
    (hkept : Kept (Stale cfg) key t) (hheld : Held (RingStale cfg) e t) :
    Matches cfg t.call.now (read key t.server) (e.pending theKey t.call.now) := by
  have hlua : ∀ idx, tick cfg t.call.now - cfg.buckets ≤ idx →
      luaCountAt cfg ((read key t.server).getD noHash) idx
        = luaCountAt cfg ((key.map Key.value).getD noHash) idx := by
    intro idx hidx
    cases key with
    | none => rfl
    | some k =>
      rw [Redis.read, Option.bind_some]
      cases hlive : k.live t.server with
      | true => rfl
      | false =>
        refine (Empty.eq_zero (hkept.2 k rfl hlive) (fun idx hidx => ?_) hidx).symm
        exact (h.same idx (by omega)).trans (h.later idx hidx)
  have hring : ∀ idx, tick cfg t.call.now - cfg.buckets ≤ idx →
      countAt cfg ((e.pending theKey t.call.now).getD .empty) idx
        = countAt cfg (((e theKey).map Prod.fst).getD .empty) idx := by
    intro idx hidx
    have hlater := h.later
    rw [Entries.pending]
    cases hentry : e theKey with
    | none => rfl
    | some entry =>
      rw [hentry] at hlater
      rw [Option.bind_some]
      split
      · rename_i hdue
        exact (countAt_empty idx).trans (Empty.eq_zero (hheld entry hentry hdue) hlater hidx).symm
      · rfl
  exact ⟨fun idx hidx => (hlua idx hidx).trans ((h.same idx hidx).trans (hring idx hidx).symm),
    fun idx hidx => (hring idx (by omega)).trans (h.later idx hidx)⟩

/-- Both count the same. -/
theorem Matches.sums_eq (h : Matches cfg now hash ring) :
    luaFull cfg (hash.getD noHash) now = full cfg (ring.getD .empty) now ∧
      luaOldest cfg (hash.getD noHash) now = oldest cfg (ring.getD .empty) now := by
  refine ⟨?_, h.same _ le_rfl⟩
  rw [luaFull, full]
  congr 1
  exact List.map_congr_left fun k _ => h.same _ (by omega)

/-- Before the epoch nothing is counted. -/
theorem sums_of_neg (ring : State) (hneg : tick cfg now < 0) :
    full cfg ring now = 0 ∧ oldest cfg ring now = 0 := by
  have hzero : ∀ x ∈ (List.range cfg.buckets).map fun (k : ℕ) =>
      countAt cfg ring (tick cfg now - cfg.buckets + 1 + k), x = 0 := by
    intro x hx
    obtain ⟨k, hk, rfl⟩ := List.mem_map.mp hx
    have hlt := List.mem_range.mp hk
    exact countAt_of_neg (by omega)
  refine ⟨?_, countAt_of_neg (by omega)⟩
  rw [full, sumOf_of_isWhole (fun x hx => by rw [hzero x hx]; exact ⟨isWhole_intCast 0, le_rfl⟩),
    List.sum_eq_zero hzero]
  rw [List.sum_eq_zero hzero]
  positivity

/-- What is admitted is no earlier than the epoch. -/
theorem tick_nonneg_of_fits {ring : State} {cost : ℚ}
    (h : 0 ≤ tick cfg now ∨ cfg.limit < fl cost)
    (hfits : projectedOf cfg (full cfg ring now) (oldest cfg ring now) now cost ≤ cfg.limit) :
    0 ≤ tick cfg now := by
  refine h.elim id fun hover => le_of_not_gt fun hneg => absurd hfits (not_le.mpr ?_)
  obtain ⟨hfull, holdest⟩ := sums_of_neg ring hneg
  rw [hfull, holdest, projectedOf, zero_mul, fl_zero, zero_add, fl_zero, zero_add]
  exact hover

/-- **An admitted check keeps the hash and the ring matching.** -/
theorem Matches.bumped {cost : ℚ} (h : Matches cfg now hash ring) (hnow : 0 ≤ tick cfg now)
    (htick : fl (readBack (tick cfg now)) = tick cfg now)
    (hcount : fl (readBack (fl (luaCountAt cfg (hash.getD noHash) (tick cfg now) + cost)))
      = fl (luaCountAt cfg (hash.getD noHash) (tick cfg now) + cost)) :
    Matches cfg now (some (luaBumped cfg (hash.getD noHash) (tick cfg now) cost))
      (some (SlidingWindow.bumped cfg (ring.getD .empty) (tick cfg now) cost)) where
  same idx hidx := by
    rw [Option.getD_some, Option.getD_some, luaCountAt_bumped htick hcount,
      h.same (tick cfg now) (by omega)]
    rcases lt_or_ge idx 0 with hneg | hnonneg
    · have hne : idx ≠ tick cfg now := by omega
      rw [countAt_of_neg hneg, if_neg hne, h.same idx hidx, countAt_of_neg hneg, ite_self]
    · rw [countAt_bumped _ _ _ hnonneg, h.same idx hidx, Int.tmod_eq_emod_of_nonneg hnonneg,
        Int.tmod_eq_emod_of_nonneg hnow]
  later idx hidx := by
    rw [Option.getD_some, countAt_bumped _ _ _ (by omega), if_neg hidx.ne', h.later idx hidx,
      ite_self]

/-- A check of the script, by what the hash counts. -/
theorem scripted_luaScript {key : Option (Key Hash)} {t : Timed} {d : Decision}
    (hnow : t.eval.now = t.call.now)
    (hd : decideBy cfg (luaFull cfg ((read key t.server).getD noHash) t.call.now)
      (luaOldest cfg ((read key t.server).getD noHash) t.call.now) t.call.now t.call.cost = d) :
    scripted (luaScript cfg) key t =
      (if d.allowed then some (writePx t.server (luaBumped cfg ((read key t.server).getD noHash)
          (tick cfg t.call.now) t.call.cost) ⌊(⌈fl (cfg.windowMs + cfg.w)⌉ : ℚ)⌋) else key,
        longLongs (reply d)) := by
  have hscript : luaScript cfg (read key t.server) t.call.now t.call.cost
      = if d.allowed then ⟨some (luaBumped cfg ((read key t.server).getD noHash)
          (tick cfg t.call.now) t.call.cost), reply d, ⌈fl (cfg.windowMs + cfg.w)⌉, true⟩
        else ⟨read key t.server, reply d, ⌈fl (cfg.windowMs + cfg.w)⌉, false⟩ := by
    rw [← hd]
    rfl
  rw [scripted_eq hnow hscript]
  split <;> rfl

/-- A check in process, by what the ring counts. -/
theorem inProcess_check {e : Entries State} {t : Timed} {d : Decision}
    (hd : decideBy cfg (full cfg ((e.pending theKey t.call.now).getD .empty) t.call.now)
      (oldest cfg ((e.pending theKey t.call.now).getD .empty) t.call.now) t.call.now t.call.cost
        = d) :
    inProcess (check cfg) e t =
      (if d.allowed then Function.update e theKey (some (SlidingWindow.bumped cfg
          ((e.pending theKey t.call.now).getD .empty) (tick cfg t.call.now) t.call.cost,
          fl (t.call.now + max 0 cfg.ttlMs))) else e, d) := by
  have hcheck : check cfg (e.pending theKey t.call.now) t.call.now t.call.cost
      = if d.allowed then ⟨some (SlidingWindow.bumped cfg ((e.pending theKey t.call.now).getD
          .empty) (tick cfg t.call.now) t.call.cost), d, cfg.ttlMs, true⟩
        else ⟨e.pending theKey t.call.now, d, cfg.ttlMs, false⟩ := by
    rw [← hd]
    rfl
  rw [inProcess, Entries.applySync, hcheck]
  split <;> rfl

/-- **One check of both forms.** -/
theorem step_alike {key : Option (Key Hash)} {e : Entries State} {t : Timed}
    (h : Matches cfg t.call.now (key.map Key.value) ((e theKey).map Prod.fst))
    (hkept : KeptAlike cfg key t) (hheld : Held (RingStale cfg) e t) :
    ((scripted (luaScript cfg) key t).2 = some (inProcess (check cfg) e t).2 ↔
      Rounds cfg (read key t.server) t.call.now t.call.cost) ∧
      Matches cfg t.call.now ((scripted (luaScript cfg) key t).1.map Key.value)
        (((inProcess (check cfg) e t).1 theKey).map Prod.fst) := by
  obtain ⟨hclock, hepoch, hback⟩ := hkept
  have hfound := h.found hclock hheld
  obtain ⟨hfull, holdest⟩ := hfound.sums_eq
  rw [scripted_luaScript hclock.1 rfl, inProcess_check rfl, Rounds, ← longLongs_reply_iff, hfull,
    holdest]
  refine ⟨Iff.rfl, ?_⟩
  dsimp only
  rw [decideBy_eq]
  rw [ReadsBack, hfull, holdest] at hback
  by_cases hfits : projectedOf cfg (full cfg ((e.pending theKey t.call.now).getD .empty) t.call.now)
      (oldest cfg ((e.pending theKey t.call.now).getD .empty) t.call.now) t.call.now t.call.cost
        ≤ cfg.limit
  · obtain ⟨htick, hcount⟩ := hback.resolve_left (not_lt.mpr hfits)
    rw [decide_eq_true hfits, if_pos rfl, if_pos rfl, Function.update_self]
    exact hfound.bumped (tick_nonneg_of_fits hepoch hfits) htick hcount
  · rw [decide_eq_false hfits, if_neg Bool.false_ne_true, if_neg Bool.false_ne_true]
    exact h

end Matches

/-! ### One clock -/

/-- The hash counts nothing after `now`. -/
def NothingAfter (cfg : Config) (now : ℚ) (h : Hash) : Prop :=
  ∀ idx, tick cfg now < idx → luaCountAt cfg h idx = 0

/-- The tick of `now` is short enough to be written out. -/
def ShortTick (cfg : Config) (now : ℚ) : Prop := |tick cfg now| < 10 ^ 14

instance (cfg : Config) (now : ℚ) : Decidable (ShortTick cfg now) :=
  inferInstanceAs (Decidable (_ < _))

theorem NothingAfter.bumped {cfg : Config} {now : ℚ} {h : Hash} {cost : ℚ}
    (htick : readBack (tick cfg now) = tick cfg now) (hnone : NothingAfter cfg now h) :
    NothingAfter cfg now (luaBumped cfg h (tick cfg now) cost) := by
  intro idx hidx
  rw [luaCountAt, luaBumped]
  by_cases hp : idx % cfg.slots = tick cfg now % cfg.slots
  · rw [hp, Function.update_self, htick]
    show (if (tick cfg now : ℚ) = idx then _ else (0 : ℚ)) = 0
    rw [if_neg (by rw [Int.cast_inj]; exact hidx.ne)]
  · rw [Function.update_of_ne hp]
    exact hnone idx hidx

/-- On one clock, in exact numbers, no hash expires while it matters, where ticks are short enough
to be written out. -/
theorem kept_of_oneClock (cfg : Config) {ts : List Timed}
    (hsorted : ts.Pairwise fun t t' => t.call.now ≤ t'.call.now)
    (hclock : ∀ t ∈ ts, OneClock t ∧ ShortTick cfg t.call.now) :
    AllMet (scripted (luaScript cfg)) (Kept (Stale cfg)) none ts := by
  have hmono : ∀ {now now' h}, now ≤ now' → NothingAfter cfg now h → NothingAfter cfg now' h :=
    fun hle h idx hidx => h idx ((tick_mono hle).trans_lt hidx)
  refine ThrottleKit.kept_of_oneClock (ShortTick cfg) (NothingAfter cfg) hmono ?_ hsorted hclock
  intro hash now cost h hat hgood hpersist hstate
  rw [luaScript] at hpersist hstate ⊢
  split at hpersist
  · rename_i hallowed
    rw [if_pos hallowed] at hstate ⊢
    have hnone : NothingAfter cfg now (hash.getD noHash) := by
      cases hash with
      | none => exact fun _ _ => rfl
      | some h => exact hgood h rfl
    have hnext : NothingAfter cfg now h := by
      rw [← Option.some.inj hstate]
      exact hnone.bumped (readBack_intCast hat)
    refine ⟨hnext, whole_intCast _, fun t _ hle k _ => hnext _ ?_⟩
    have hpast : tick cfg now < tick cfg t - cfg.buckets := tick_lt_of_ttl hle
    omega
  · cases hpersist

/-- **The replies of a rolling quota are its decisions just where they are rounded to them.** -/
theorem answers_eq_iff [Rounding] (cfg : Config) {ts : List Timed}
    (hsorted : ts.Pairwise fun t t' => t.call.now ≤ t'.call.now)
    (hkept : AllMet (scripted (luaScript cfg)) (KeptAlike cfg) none ts)
    (hheld : AllMet (inProcess (check cfg)) (Held (RingStale cfg)) .empty ts) :
    answers (scripted (luaScript cfg)) none ts
        = (answers (inProcess (check cfg)) .empty ts).map some ↔
      AllMet (scripted (luaScript cfg))
        (fun key t => Rounds cfg (read key t.server) t.call.now t.call.cost) none ts := by
  refine answers_eq_map_iff_of_start (R := fun now key e =>
    Matches cfg now (key.map Key.value) ((e theKey).map Prod.fst)) ?_ ?_
    (fun now => .none cfg now) hsorted hkept hheld
  · exact fun hle h => h.mono hle
  · exact fun key e t h hok hok' => (step_alike h hok hok').imp_right fun hnext _ => hnext

end SlidingWindow

/-- The algorithms that run in process and as a script. -/
inductive Scripted
  | fixedWindow (cfg : FixedWindow.Config)
  | quota (cfg : Quota.Config)
  /-- A quota with the rolling cadence. -/
  | rolling (cfg : SlidingWindow.Config)
  | gcra (cfg : Gcra.Config)

namespace Scripted

/-- The state in process. -/
abbrev State : Scripted → Type
  | .fixedWindow _ => FixedWindow.State
  | .quota _ => Quota.State
  | .rolling _ => SlidingWindow.State
  | .gcra _ => ℚ

/-- The value of the key. -/
abbrev Value : Scripted → Type
  | .fixedWindow _ => FixedWindow.State
  | .quota _ => Quota.State
  | .rolling _ => SlidingWindow.Hash
  | .gcra _ => ℚ

variable [Rounding]

/-- The transform in process. -/
def check : (p : Scripted) → Option p.State → ℚ → ℚ → ApplyOutcome p.State Decision
  | .fixedWindow cfg => (FixedWindow.fixedWindow cfg).check
  | .quota cfg => (Quota.quota cfg).check
  | .rolling cfg => (Quota.rolling cfg).check
  | .gcra cfg => (Gcra.gcra cfg).check

/-- The script. -/
def script : (p : Scripted) → Option p.Value → ℚ → ℚ → ApplyOutcome p.Value Decision
  | .fixedWindow cfg => FixedWindow.luaScript cfg
  | .quota cfg => Quota.luaScript cfg
  | .rolling cfg => SlidingWindow.luaScript cfg
  | .gcra cfg => Gcra.luaScript cfg

/-- **The condition on the state in Redis.** The script goes by the time of the check, and the key
has not expired while it matters: while it counts in the window of the check, or its arrival time is
ahead. A rolling quota besides is not used before the epoch, and what it writes reads back. -/
def Kept : (p : Scripted) → Option (Key p.Value) → Timed → Prop
  | .fixedWindow cfg => ThrottleKit.Kept (FixedWindow.twin cfg).Stale
  | .quota cfg => ThrottleKit.Kept (Quota.twin cfg).Stale
  | .rolling cfg => SlidingWindow.KeptAlike cfg
  | .gcra cfg => ThrottleKit.Kept (Gcra.twin cfg).Stale

/-- **The condition on the state in process.** The entry has not expired while it matters. -/
def Held : (p : Scripted) → Entries p.State → Timed → Prop
  | .fixedWindow cfg => ThrottleKit.Held (FixedWindow.twin cfg).Stale
  | .quota cfg => ThrottleKit.Held (Quota.twin cfg).Stale
  | .rolling cfg => ThrottleKit.Held (SlidingWindow.RingStale cfg)
  | .gcra cfg => ThrottleKit.Held (Gcra.twin cfg).Stale

/-- **The condition on the reply.** The limit is whole, or the burst; the end of the window is whole
or before the epoch; 64 bits hold these, what is left and the time to wait. -/
def Rounds : (p : Scripted) → Option (Key p.Value) → Timed → Prop
  | .fixedWindow cfg => fun key t =>
    FixedWindow.Rounds cfg (read key t.server) t.call.now t.call.cost
  | .quota cfg => fun key t => Quota.Rounds cfg (read key t.server) t.call.now t.call.cost
  | .rolling cfg => fun key t =>
    SlidingWindow.Rounds cfg (read key t.server) t.call.now t.call.cost
  | .gcra cfg => fun key t => Gcra.Rounds cfg (read key t.server) t.call.now t.call.cost

instance Kept.decidable :
    (p : Scripted) → (key : Option (Key p.Value)) → (t : Timed) → Decidable (p.Kept key t)
  | .fixedWindow cfg, key, t => inferInstanceAs (Decidable (ThrottleKit.Kept
      (fun st now => st.start ≠ startOf cfg.windowMs now) key t))
  | .quota cfg, key, t => inferInstanceAs (Decidable (ThrottleKit.Kept
      (fun st now => st.start ≠ (cfg.resetCadence.bounds now).start) key t))
  | .rolling cfg, key, t => inferInstanceAs (Decidable (SlidingWindow.KeptAlike cfg key t))
  | .gcra _, key, t =>
    inferInstanceAs (Decidable (ThrottleKit.Kept (fun (tat : ℚ) now => tat ≤ now) key t))

instance Held.decidable :
    (p : Scripted) → (e : Entries p.State) → (t : Timed) → Decidable (p.Held e t)
  | .fixedWindow cfg, e, t => inferInstanceAs (Decidable (ThrottleKit.Held
      (fun st now => st.start ≠ startOf cfg.windowMs now) e t))
  | .quota cfg, e, t => inferInstanceAs (Decidable (ThrottleKit.Held
      (fun st now => st.start ≠ (cfg.resetCadence.bounds now).start) e t))
  | .rolling cfg, e, t =>
    inferInstanceAs (Decidable (ThrottleKit.Held (SlidingWindow.RingStale cfg) e t))
  | .gcra _, e, t =>
    inferInstanceAs (Decidable (ThrottleKit.Held (fun (tat : ℚ) now => tat ≤ now) e t))

instance Rounds.decidable :
    (p : Scripted) → (key : Option (Key p.Value)) → (t : Timed) → Decidable (p.Rounds key t)
  | .fixedWindow _, _, _ => FixedWindow.Rounds.decidable _ _ _ _
  | .quota _, _, _ => Quota.Rounds.decidable _ _ _ _
  | .rolling _, _, _ => SlidingWindow.Rounds.decidable _ _ _ _
  | .gcra _, _, _ => Gcra.Rounds.decidable _ _ _ _

section Doubles

omit [Rounding]

instance (p : Scripted) (key : Option (Key p.Value)) (t : Timed) :
    Decidable (@Kept doubles p key t) := @Kept.decidable doubles p key t

instance (p : Scripted) (e : Entries p.State) (t : Timed) : Decidable (@Held doubles p e t) :=
  @Held.decidable doubles p e t

instance (p : Scripted) (key : Option (Key p.Value)) (t : Timed) :
    Decidable (@Rounds doubles p key t) := @Rounds.decidable doubles p key t

end Doubles

end Scripted

/-- **The replies are the decisions just where they are rounded to them.** For any parameters, and
checks of one key at times that do not go back, as long as the state is kept: all replies of the
script are the decisions in process if and only if every check meets the condition on its reply. -/
theorem replies_eq_decisions_iff [Rounding] (p : Scripted) {ts : List Timed}
    (hsorted : ts.Pairwise fun t t' => t.call.now ≤ t'.call.now)
    (hkept : AllMet (scripted p.script) p.Kept none ts)
    (hheld : AllMet (inProcess p.check) p.Held .empty ts) :
    answers (scripted p.script) none ts = (answers (inProcess p.check) .empty ts).map some ↔
      AllMet (scripted p.script) p.Rounds none ts := by
  cases p with
  | fixedWindow cfg => exact (FixedWindow.twin cfg).answers_eq_iff hkept hheld
  | quota cfg => exact (Quota.twin cfg).answers_eq_iff hkept hheld
  | rolling cfg => exact SlidingWindow.answers_eq_iff cfg hsorted hkept hheld
  | gcra cfg => exact (Gcra.twin cfg).answers_eq_iff hkept hheld

/-- The second check fills the window, the third is denied, the fourth finds the key expired. The
server's clock is the one the times are read from. -/
def briefRun : List Timed :=
  [⟨100, 0, ⟨100, 1⟩⟩, ⟨400, 801 / 2, ⟨801 / 2, 1⟩⟩, ⟨900, 0, ⟨900, 1⟩⟩, ⟨4000, 4000, ⟨4000, 2⟩⟩]

theorem briefRun_sorted : briefRun.Pairwise fun t t' => t.call.now ≤ t'.call.now := by
  decide +kernel

theorem replies_eq_decisions_briefRun :
    answers (scripted (@Scripted.script doubles (.fixedWindow Policy.pairPerWindow))) none briefRun
        = (answers (@inProcess _ doubles (@Scripted.check doubles
          (.fixedWindow Policy.pairPerWindow))) .empty briefRun).map some ∧
      answers (scripted (@Scripted.script doubles (.quota Policy.pairPerMonth))) none briefRun
        = (answers (@inProcess _ doubles (@Scripted.check doubles (.quota Policy.pairPerMonth)))
          .empty briefRun).map some ∧
      answers (scripted (@Scripted.script doubles (.rolling SlidingWindow.oneBucket))) none briefRun
        = (answers (@inProcess _ doubles (@Scripted.check doubles
          (.rolling SlidingWindow.oneBucket))) .empty briefRun).map some ∧
      answers (scripted (@Scripted.script doubles (.gcra Policy.threePerSecond))) none briefRun
        = (answers (@inProcess _ doubles (@Scripted.check doubles (.gcra Policy.threePerSecond)))
          .empty briefRun).map some :=
  ⟨(@replies_eq_decisions_iff doubles (.fixedWindow Policy.pairPerWindow) _ briefRun_sorted
      (by decide +kernel) (by decide +kernel)).mpr (by decide +kernel),
    (@replies_eq_decisions_iff doubles (.quota Policy.pairPerMonth) _ briefRun_sorted
      (by decide +kernel) (by decide +kernel)).mpr (by decide +kernel),
    (@replies_eq_decisions_iff doubles (.rolling SlidingWindow.oneBucket) _ briefRun_sorted
      (by decide +kernel) (by decide +kernel)).mpr (by decide +kernel),
    (@replies_eq_decisions_iff doubles (.gcra Policy.threePerSecond) _ briefRun_sorted
      (by decide +kernel) (by decide +kernel)).mpr (by decide +kernel)⟩

/-- Two units in half a second and half a millisecond. -/
def fractionalWindow : FixedWindow.Config where
  limit := 2
  windowMs := 1001 / 2
  limit_pos := pair_pos
  windowMs_pos := by decide +kernel

/-- One unit in the sixtieth part of a second. -/
def sixtieth : FixedWindow.Config where
  limit := 1
  windowMs := @fl doubles (1000 / 60)
  limit_pos := unit_pos
  windowMs_pos := by decide +kernel

/-- Two units in each period of half a second and half a millisecond. -/
def fractionalPeriod : Quota.Config where
  limit := 2
  resetCadence := .fixed (1001 / 2) 0 (by decide +kernel)
  limit_pos := pair_pos

/-- Three units a second, and one and a half at once. -/
def fractionalBurst : Gcra.Config where
  limit := 3
  periodMs := 1000
  burst := 3 / 2
  limit_pos := three_pos
  periodMs_pos := second_pos
  one_le_burst := by decide +kernel

/-- On one clock, the replies are the decisions. -/
def Scripted.Agrees [Rounding] (p : Scripted) : Prop :=
  ∀ ts : List Timed, (ts.Pairwise fun t t' => t.call.now ≤ t'.call.now) →
    (∀ t ∈ ts, requireCost t.call.cost = .ok ()) → (∀ t ∈ ts, OneClock t) →
    answers (scripted p.script) none ts = (answers (inProcess p.check) .empty ts).map some

/-- One check, at the first millisecond. -/
def firstCheck : List Timed := [⟨1, 1, ⟨1, 1⟩⟩]

theorem firstCheck_oneClock : ∀ t ∈ firstCheck, OneClock t := by
  intro t ht
  rw [List.mem_singleton.mp ht]
  exact ⟨by decide +kernel, .inl rfl⟩

/-- Two checks in one window, the second when the entry in process is due. -/
def atItsEnd : List Timed := [⟨240, 240, ⟨240, 1⟩⟩, ⟨250, 250, ⟨250, 1⟩⟩]

theorem atItsEnd_oneClock : ∀ t ∈ atItsEnd, OneClock t := by
  intro t ht
  rcases List.mem_pair.mp ht with rfl | rfl
  · exact ⟨by decide +kernel, .inl rfl⟩
  · exact ⟨by decide +kernel, .inl rfl⟩

/-- The end of the first window is 500.5: the script replies 500, and in process it is 501. A burst
of 1.5 is replied as 1. A window of the sixtieth part of a second ends at 250 in doubles, and 250 is
still in it: in process the entry is gone then, and in Redis the key is there. -/
theorem not_replies_eq_decisions :
    ¬ @Scripted.Agrees doubles (.fixedWindow fractionalWindow) ∧
      ¬ @Scripted.Agrees doubles (.quota fractionalPeriod) ∧
      ¬ @Scripted.Agrees doubles (.gcra fractionalBurst) ∧
      ¬ @Scripted.Agrees doubles (.fixedWindow sixtieth) :=
  ⟨fun h => absurd (h firstCheck (by decide +kernel) (by decide +kernel) firstCheck_oneClock)
      (by decide +kernel),
    fun h => absurd (h firstCheck (by decide +kernel) (by decide +kernel) firstCheck_oneClock)
      (by decide +kernel),
    fun h => absurd (h firstCheck (by decide +kernel) (by decide +kernel) firstCheck_oneClock)
      (by decide +kernel),
    fun h => absurd (h atItsEnd (by decide +kernel) (by decide +kernel) atItsEnd_oneClock)
      (by decide +kernel)⟩

end ThrottleKit
