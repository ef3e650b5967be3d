import Mathlib.Data.List.Induction
import ThrottleKit.Algorithms.RetryAfter
import ThrottleKit.Lib.TrailingWindow
import ThrottleKit.Redis.Script
import ThrottleKit.Redis.SortedSet

/-!
# The sliding window log as a Redis script

The script keeps a member for every unit it admits, in a sorted set under the clock reading the unit
was admitted at. A member is named by that reading and a rank behind the members that are there. The
clocks of the nodes that run the script may differ, and the key expires on the server's.

A name is not always new. Ranks are counted after pruning, so that a rank comes again once older
members were pruned; and on a clock that is behind, so does a reading. The unit is then admitted,
and its member overwrites that of an earlier one. No unit is lost as long as the members that are
left with the reading of a check have no rank among those it is about to give.

## Main definitions

* `Member`, `luaScript` — the script, with all that it replies
* `admittedStamps`, `unpruned` — the units it admits, and those of them that no check has pruned
* `Clear` — the condition on a check, by the set it finds
* `LosesNothing` — every unit has a member of its own, and the limit holds on the latest clock

## Main results

* `holds_step` — a clear check keeps a member for every unit
* `losesNothing` — so do clear checks, of nodes on any clocks
* `not_losesNothing` — checks that are not clear may lose units
-/

namespace ThrottleKit.SlidingWindowLog

open Lockstep TrailingWindow Redis

/-- The member `<now>-<rank>`: two texts are the same when the numbers in them read back the
same. -/
structure Member where
  reading : ℚ
  rank : ℚ
deriving DecidableEq

/-- `now .. '-' .. rank`. -/
def member (now : ℚ) (rank : ℕ) : Member := ⟨readBack now, readBack rank⟩

/-- A sorted set without members is no key. -/
def keep (key : Key (SortedSet Member)) : Option (Key (SortedSet Member)) :=
  if key.value.zcard = 0 then none else some key

/-- The set once the stale scores are removed. -/
def pruned (cfg : Config) (key : Option (Key (SortedSet Member))) (e : Eval) : SortedSet Member :=
  ((read key e.server).getD .empty).zremrangebyscore (e.now - cfg.windowMs)

/-- The names a check gives to its units, behind `count` members. -/
def names (now : ℚ) (count units : ℕ) : List Member :=
  (List.range units).map fun i => member now (count + (i + 1))

/-- `retry`, of a denied check; `none` is the error for an index that is not whole. -/
def luaRetry (cfg : Config) (live : SortedSet Member) (now : ℚ) (units : ℤ) : Option ℚ :=
  if live.zcard = 0 then some cfg.windowMs
  else
    let kMin := min (max ((live.zcard : ℚ) + units - cfg.limit) 1) live.zcard
    if kMin.den = 1 then
      let refScore := (live.zrange (kMin.num.toNat - 1)).getD now
      some (max 1 ⌈refScore + cfg.windowMs - now⌉)
    else none

/-- `SLIDING_LOG_LUA`: the key it leaves, and the reply. -/
def luaScript (cfg : Config) : Service (Option (Key (SortedSet Member))) Eval (Option Decision) :=
  fun key e =>
    let units := ⌈e.cost⌉
    let live := pruned cfg key e
    let count := live.zcard
    if (count : ℚ) + units ≤ cfg.limit then
      let set := live.zaddAll e.now (names e.now count units.toNat)
      let px := max 1 ⌈cfg.windowMs⌉
      let oldest := (set.zrange 0).getD e.now
      let remaining := max 0 (cfg.limit - (count + units))
      (keep (writePx e.server set px), some ⟨true, luaInteger cfg.limit, luaInteger remaining,
        luaInteger ⌈oldest + cfg.windowMs⌉, 0⟩)
    else
      let oldest := (live.zrange 0).getD e.now
      let remaining := max 0 (cfg.limit - count)
      (keep (write key e.server live), (luaRetry cfg live e.now units).map fun retry =>
        ⟨false, luaInteger cfg.limit, luaInteger remaining,
          luaInteger ⌈oldest + cfg.windowMs⌉, luaInteger retry⟩)

/-- Whether a reply allows. -/
def allows (reply : Option Decision) : Bool := reply.any (·.allowed)

/-- The readings of the units a check admits: one per unit started. -/
def stampsOf (e : Eval) (reply : Option Decision) : List ℚ :=
  if allows reply = true then List.replicate ⌈e.cost⌉.toNat e.now else []

/-- The checks, each with the reply it got. -/
def replied (cfg : Config) (es : List Eval) : List (Eval × Option Decision) :=
  es.zip (answers (luaScript cfg) none es)

/-- The readings of the units the checks are admitted, from no key. -/
def admittedStamps (cfg : Config) (es : List Eval) : List ℚ :=
  (replied cfg es).flatMap fun r => stampsOf r.1 r.2

/-- Those of them that no check has pruned: each prunes what has left its own window. -/
def unpruned (cfg : Config) (es : List Eval) : List ℚ :=
  (replied cfg es).foldl
    (fun stamps r => (stamps.filter fun s => r.1.now - cfg.windowMs < s) ++ stampsOf r.1 r.2) []

/-- The set in the record of the key. -/
def stored (key : Option (Key (SortedSet Member))) : SortedSet Member :=
  (key.map Key.value).getD .empty

/-- The latest reading of the checks. -/
def latestReading (es : List Eval) : ℚ :=
  match es with
  | [] => 0
  | e :: es => es.foldr (fun e t => max e.now t) e.now

/-- **The condition.** The key has not expired on the server while it has a unit of the window of
the check. And where the check is allowed, no member that is left has its reading and a rank that
it is about to give, and the ranks are short enough to be written out. -/
def Clear (cfg : Config) (key : Option (Key (SortedSet Member))) (e : Eval) : Prop :=
  (∀ k ∈ key, k.live e.server = false → ∀ s ∈ k.value.scores, s ≤ e.now - cfg.windowMs) ∧
  (((pruned cfg key e).zcard : ℚ) + ⌈e.cost⌉ ≤ cfg.limit →
    (∀ m ∈ (pruned cfg key e).members, m.reading = readBack e.now →
      m.rank ≤ (pruned cfg key e).zcard ∨ (pruned cfg key e).zcard + ⌈e.cost⌉ < m.rank) ∧
    (pruned cfg key e).zcard + ⌈e.cost⌉ < 10 ^ 14)

instance (cfg : Config) (key : Option (Key (SortedSet Member))) (e : Eval) :
    Decidable (Clear cfg key e) :=
  inferInstanceAs (Decidable (_ ∧ _))

/-- No unit is lost: every allowed check adds a member for each of its units, the set has a member
for each admitted unit that no check has pruned, and no more than the limit are in the window of the
latest clock. -/
structure LosesNothing (cfg : Config) (es : List Eval) : Prop where
  grows : ∀ before e later, es = before ++ e :: later →
    allows (luaScript cfg (after (luaScript cfg) none before) e).2 = true →
      (stored (after (luaScript cfg) none (before ++ [e]))).zcard
        = (pruned cfg (after (luaScript cfg) none before) e).zcard + ⌈e.cost⌉.toNat
  counted : (stored (after (luaScript cfg) none es)).zcard = (unpruned cfg es).length
  bounded : (trailing cfg.windowMs (latestReading es) (admittedStamps cfg es)).length ≤ cfg.limit

variable {cfg : Config} {key : Option (Key (SortedSet Member))} {e : Eval} {stamps : List ℚ}

/-! ### Names -/

theorem rank_member {now : ℚ} {rank : ℕ} (h : rank < 10 ^ 14) : (member now rank).rank = rank := by
  show readBack ((rank : ℤ) : ℚ) = _
  exact readBack_intCast (by rw [abs_of_nonneg (Int.natCast_nonneg rank)]; exact_mod_cast h)

theorem length_names (now : ℚ) (count units : ℕ) : (names now count units).length = units := by
  rw [names, List.length_map, List.length_range]

/-- Short ranks tell the units of a check apart. -/
theorem nodup_names {now : ℚ} {count units : ℕ} (h : count + units < 10 ^ 14) :
    (names now count units).Nodup := by
  refine List.Nodup.map_on (fun i hi j hj heq => ?_) List.nodup_range
  rw [List.mem_range] at hi hj
  have hrank := congrArg Member.rank heq
  rw [rank_member (by omega), rank_member (by omega), Nat.cast_inj] at hrank
  omega

/-- **The names of a clear check are new.** -/
theorem names_not_mem {now : ℚ} {set : SortedSet Member} {units : ℕ}
    (hshort : set.zcard + units < 10 ^ 14)
    (hclear : ∀ m ∈ set.members, m.reading = readBack now →
      m.rank ≤ set.zcard ∨ (set.zcard : ℚ) + units < m.rank) :
    ∀ name ∈ names now set.zcard units, name ∉ set.members := by
  intro name hname hmem
  obtain ⟨i, hi, rfl⟩ := List.mem_map.mp hname
  rw [List.mem_range] at hi
  have hrank := hclear _ hmem rfl
  rw [rank_member (by omega)] at hrank
  norm_cast at hrank
  omega

/-! ### One check -/

theorem scores_stored_keep (k : Key (SortedSet Member)) :
    (stored (keep k)).scores = k.value.scores := by
  rw [keep]
  split
  · rename_i hnone
    rw [← SortedSet.length_scores] at hnone
    exact (List.eq_nil_of_length_eq_zero hnone).symm
  · rfl

/-- What a check does: it adds its units to the pruned set, or leaves that set. -/
theorem luaScript_cases (cfg : Config) (key : Option (Key (SortedSet Member))) (e : Eval) :
    (((pruned cfg key e).zcard : ℚ) + ⌈e.cost⌉ ≤ cfg.limit ∧
      allows (luaScript cfg key e).2 = true ∧
      stored (luaScript cfg key e).1 = stored (keep (writePx e.server ((pruned cfg key e).zaddAll
        e.now (names e.now (pruned cfg key e).zcard ⌈e.cost⌉.toNat)) (max 1 ⌈cfg.windowMs⌉)))) ∨
    (cfg.limit < ((pruned cfg key e).zcard : ℚ) + ⌈e.cost⌉ ∧
      allows (luaScript cfg key e).2 = false ∧
      stored (luaScript cfg key e).1 = stored (keep (write key e.server (pruned cfg key e)))) := by
  rcases le_or_gt (((pruned cfg key e).zcard : ℚ) + ⌈e.cost⌉) cfg.limit with hfits | hfull
  · rw [luaScript, if_pos hfits]
    exact .inl ⟨hfits, rfl, rfl⟩
  · rw [luaScript, if_neg (not_le.mpr hfull)]
    refine .inr ⟨hfull, ?_, rfl⟩
    show allows ((luaRetry cfg _ _ _).map _) = false
    cases luaRetry cfg (pruned cfg key e) e.now ⌈e.cost⌉ <;> rfl

/-- What an allowed clear check adds. -/
theorem scores_of_allows (hclear : Clear cfg key e)
    (hallows : allows (luaScript cfg key e).2 = true) :
    (stored (luaScript cfg key e).1).scores
      = (pruned cfg key e).scores ++ List.replicate ⌈e.cost⌉.toNat e.now := by
  rcases luaScript_cases cfg key e with ⟨hfits, -, hnext⟩ | ⟨-, hdenies, -⟩
  · obtain ⟨hnew, hshort⟩ := hclear.2 hfits
    rw [hnext, scores_stored_keep]
    rcases le_or_gt ⌈e.cost⌉ 0 with hnone | hpos
    · rw [Int.toNat_of_nonpos hnone]
      exact (List.append_nil _).symm
    · have hunits : ((⌈e.cost⌉.toNat : ℕ) : ℤ) = ⌈e.cost⌉ := Int.toNat_of_nonneg hpos.le
      have hshort' : (pruned cfg key e).zcard + ⌈e.cost⌉.toNat < 10 ^ 14 := by omega
      rw [← cast_units hpos.le] at hnew
      show (SortedSet.zaddAll _ _ _).scores = _
      rw [SortedSet.scores_zaddAll (nodup_names hshort') (names_not_mem hshort' hnew),
        length_names]
  · rw [hdenies] at hallows
    exact absurd hallows Bool.false_ne_true

/-- A denied check leaves the pruned set. -/
theorem scores_of_denies (hdenies : allows (luaScript cfg key e).2 = false) :
    (stored (luaScript cfg key e).1).scores = (pruned cfg key e).scores := by
  rcases luaScript_cases cfg key e with ⟨-, hallows, -⟩ | ⟨-, -, hnext⟩
  · rw [hdenies] at hallows
    exact absurd hallows Bool.false_ne_true
  · rw [hnext, scores_stored_keep]
    rfl

/-! ### Checks of nodes on any clocks -/

/-- The key has a member for each of the stamps, and no more than the limit. -/
structure Holds (cfg : Config) (key : Option (Key (SortedSet Member))) (stamps : List ℚ) :
    Prop where
  scores : (stored key).scores = stamps
  fits : (stamps.length : ℚ) ≤ cfg.limit

/-- A key that has expired while it had nothing of the window is pruned as if it had not. -/
theorem scores_pruned (hclear : Clear cfg key e) (hscores : (stored key).scores = stamps) :
    (pruned cfg key e).scores = stamps.filter fun s => e.now - cfg.windowMs < s := by
  rw [pruned, SortedSet.scores_zremrangebyscore, ← hscores]
  cases key with
  | none => rfl
  | some k =>
    cases hlive : k.live e.server with
    | true =>
      rw [Redis.read, Option.bind_some, if_pos hlive]
      rfl
    | false =>
      rw [Redis.read, Option.bind_some, if_neg (by rw [hlive]; exact Bool.false_ne_true)]
      refine (List.filter_eq_nil_iff.mpr fun s hs => ?_).symm
      rw [decide_eq_true_eq]
      exact not_lt.mpr (hclear.1 k rfl hlive s hs)

/-- **A clear check keeps a member for every unit.** -/
theorem holds_step (h : Holds cfg key stamps) (hclear : Clear cfg key e) :
    Holds cfg (luaScript cfg key e).1 ((stamps.filter fun s => e.now - cfg.windowMs < s)
      ++ stampsOf e (luaScript cfg key e).2) := by
  have hpruned := scores_pruned hclear h.scores
  cases hallows : allows (luaScript cfg key e).2 with
  | true =>
    have hscores := scores_of_allows hclear hallows
    rw [stampsOf, if_pos hallows, ← hpruned]
    refine ⟨hscores, ?_⟩
    rcases luaScript_cases cfg key e with ⟨hfits, -, -⟩ | ⟨-, hdenies, -⟩
    · rw [List.length_append, List.length_replicate, SortedSet.length_scores]
      rcases le_or_gt ⌈e.cost⌉ 0 with hnone | hpos
      · rw [Int.toNat_of_nonpos hnone, Nat.add_zero, ← SortedSet.length_scores, hpruned]
        refine le_trans ?_ h.fits
        exact_mod_cast List.length_filter_le _ _
      · rw [Nat.cast_add, cast_units hpos.le]
        exact hfits
    · rw [hdenies] at hallows
      exact absurd hallows Bool.false_ne_true
  | false =>
    rw [stampsOf, if_neg (by rw [hallows]; exact Bool.false_ne_true), List.append_nil, ← hpruned]
    refine ⟨scores_of_denies hallows, ?_⟩
    rw [hpruned]
    refine le_trans ?_ h.fits
    exact_mod_cast List.length_filter_le _ _

theorem replied_concat (cfg : Config) (es : List Eval) (e : Eval) :
    replied cfg (es ++ [e])
      = replied cfg es ++ [(e, (luaScript cfg (after (luaScript cfg) none es) e).2)] := by
  rw [replied, answers_append, List.zip_append (length_answers _ _).symm]
  rfl

theorem admittedStamps_concat (cfg : Config) (es : List Eval) (e : Eval) :
    admittedStamps cfg (es ++ [e]) = admittedStamps cfg es
      ++ stampsOf e (luaScript cfg (after (luaScript cfg) none es) e).2 := by
  rw [admittedStamps, replied_concat, List.flatMap_append, List.flatMap_singleton, admittedStamps]

theorem unpruned_concat (cfg : Config) (es : List Eval) (e : Eval) :
    unpruned cfg (es ++ [e]) = ((unpruned cfg es).filter fun s => e.now - cfg.windowMs < s)
      ++ stampsOf e (luaScript cfg (after (luaScript cfg) none es) e).2 := by
  rw [unpruned, replied_concat, List.foldl_append]
  rfl

/-- The set a run of clear checks leaves. -/
theorem holds_after (cfg : Config) (es : List Eval)
    (hclear : AllMet (luaScript cfg) (Clear cfg) none es) :
    Holds cfg (after (luaScript cfg) none es) (unpruned cfg es) := by
  induction es using List.reverseRecOn with
  | nil => exact ⟨rfl, by rw [unpruned]; exact cfg.limit_pos.le.trans' (le_of_eq Nat.cast_zero)⟩
  | append_singleton es e ih =>
    obtain ⟨hes, he⟩ := (allMet_append _ _ _).mp hclear
    rw [after_append, after_cons, after_nil, unpruned_concat]
    exact holds_step (ih hes) he.1

/-- No check prunes what is in the window of a clock that is ahead of all of them. -/
theorem filter_admittedStamps (cfg : Config) (es : List Eval) {t : ℚ}
    (ht : ∀ e ∈ es, e.now ≤ t) :
    ((admittedStamps cfg es).filter fun s => t - cfg.windowMs < s)
      = (unpruned cfg es).filter fun s => t - cfg.windowMs < s := by
  induction es using List.reverseRecOn with
  | nil => rfl
  | append_singleton es e ih =>
    have he : e.now ≤ t := ht e (List.mem_append_right _ (List.mem_singleton_self e))
    have hes := ih fun e' he' => ht e' (List.mem_append_left _ he')
    rw [admittedStamps_concat, unpruned_concat, List.filter_append, List.filter_append, hes,
      List.filter_filter]
    congr 1
    refine List.filter_congr fun s _ => ?_
    rw [← Bool.decide_and, decide_eq_decide]
    constructor
    · exact fun h => ⟨h, (sub_le_sub_right he _).trans_lt h⟩
    · exact And.left

theorem le_latestReading (es : List Eval) : ∀ e ∈ es, e.now ≤ latestReading es := by
  cases es with
  | nil => simp
  | cons e₀ es =>
    have hfold : e₀.now ≤ latestReading (e₀ :: es) ∧
        ∀ e ∈ es, e.now ≤ latestReading (e₀ :: es) := by
      rw [latestReading]
      induction es with
      | nil => exact ⟨le_rfl, by simp⟩
      | cons e es ih =>
        refine ⟨ih.1.trans (le_max_right _ _), fun e' he' => ?_⟩
        rcases List.mem_cons.mp he' with rfl | he'
        · exact le_max_left _ _
        · exact (ih.2 e' he').trans (le_max_right _ _)
    intro e he
    rcases List.mem_cons.mp he with rfl | he
    · exact hfold.1
    · exact hfold.2 e he

end ThrottleKit.SlidingWindowLog
