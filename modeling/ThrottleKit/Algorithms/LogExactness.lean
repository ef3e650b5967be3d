import Mathlib.Data.List.Induction
import ThrottleKit.Algorithms.RetryAfter
import ThrottleKit.Core.Limiter
import ThrottleKit.Lib.TrailingWindow

/-!
# The sliding window log is exact

The log keeps an instant for every unit it admits, and drops the stale ones as a prefix. On a clock
that does not go back it is in order, so the prefix is all that is stale, and what is left is the
trailing window of everything ever admitted: the store may have pruned the log before, or have found
it expired, and neither loses an instant that a later window would count.

What is admitted is read off the answers of a limiter on its store, for checks of any keys.

## Main definitions

* `checks`, `admittedUnits` — the checks of a limiter, and the instants of the units it admits
* `Tracks` — the entry of a key holds the trailing window of what was admitted to it
* `Exact` — a check decides by the trailing window

## Main results

* `tracks_after` — entries track what was admitted, after any checks in order
* `checks_exact` — the log is exact, over every half-open interval
-/

namespace ThrottleKit.SlidingWindowLog

open Lockstep TrailingWindow

/-- The checks of a limiter, each with its key. -/
def checks (cfg : Config) (pre : Option String) :
    Service (Entries (List ℚ)) (String × Call) (Except CostError Decision) := fun e c =>
  Limiter.check (slidingWindowLog cfg) pre e c.1 c.2.cost c.2.now

/-- Whether an answer admits. -/
def admits : Except CostError Decision → Bool
  | .ok decision => decision.allowed
  | .error _ => false

/-- The instants of the units an answered check admits to `key`: one per unit started. -/
def unitsOf (key : String) (c : String × Call) (answer : Except CostError Decision) : List ℚ :=
  if c.1 = key ∧ admits answer = true then List.replicate ⌈c.2.cost⌉.toNat c.2.now else []

/-- The instants of the units the checks are admitted to `key`, from an empty store. -/
def admittedUnits (cfg : Config) (pre : Option String) (key : String) (cs : List (String × Call)) :
    List ℚ :=
  (cs.zip (answers (checks cfg pre) Entries.empty cs)).flatMap fun c => unitsOf key c.1 c.2

/-- A check, after those of `cs`, decides by the trailing window: the log it prunes is the window,
it denies just where the window has no room, and where it admits it leaves the window with the new
units. -/
structure Exact (cfg : Config) (pre : Option String) (cs : List (String × Call))
    (c : String × Call) : Prop where
  pruned : survivors cfg
      ((after (checks cfg pre) Entries.empty cs).pending (prefixer pre c.1) c.2.now) c.2.now
    = trailing cfg.windowMs c.2.now (admittedUnits cfg pre c.1 cs)
  denies : ∀ decision,
    (checks cfg pre (after (checks cfg pre) Entries.empty cs) c).2 = .ok decision →
      (decision.allowed = false ↔ cfg.limit
        < (trailing cfg.windowMs c.2.now (admittedUnits cfg pre c.1 cs)).length + ⌈c.2.cost⌉)
  leaves : ∀ decision,
    (checks cfg pre (after (checks cfg pre) Entries.empty cs) c).2 = .ok decision →
      decision.allowed = true →
        (after (checks cfg pre) Entries.empty (cs ++ [c])).pending (prefixer pre c.1) c.2.now
          = some (trailing cfg.windowMs c.2.now (admittedUnits cfg pre c.1 (cs ++ [c])))

/-! ### What is admitted -/

theorem admittedUnits_concat (cfg : Config) (pre : Option String) (key : String)
    (cs : List (String × Call)) (c : String × Call) :
    admittedUnits cfg pre key (cs ++ [c]) = admittedUnits cfg pre key cs
      ++ unitsOf key c (checks cfg pre (after (checks cfg pre) Entries.empty cs) c).2 := by
  rw [admittedUnits, answers_append, List.zip_append (length_answers _ _).symm,
    List.flatMap_append, admittedUnits]
  show _ ++ (unitsOf key c _ ++ []) = _
  rw [List.append_nil]

/-- **What a check does.** It changes nothing and admits nothing, or it finds room among the
survivors and records its units behind them. -/
theorem checks_cases (cfg : Config) (pre : Option String) (e : Entries (List ℚ))
    (c : String × Call) :
    ((checks cfg pre e c).1 = e ∧ admits (checks cfg pre e c).2 = false) ∨
    (admits (checks cfg pre e c).2 = true ∧ 0 < ⌈c.2.cost⌉ ∧
      ((survivors cfg (e.pending (prefixer pre c.1) c.2.now) c.2.now).length : ℚ) + ⌈c.2.cost⌉
        ≤ cfg.limit ∧
      (checks cfg pre e c).1 = Function.update e (prefixer pre c.1)
        (some (record (survivors cfg (e.pending (prefixer pre c.1) c.2.now) c.2.now) c.2.now
          ⌈c.2.cost⌉.toNat, c.2.now + cfg.windowMs))) := by
  cases hcost : requireCost c.2.cost with
  | error err =>
    have hcheck : checks cfg pre e c = (e, .error err) := by
      rw [checks, Limiter.check, hcost]
    rw [hcheck]
    exact .inl ⟨rfl, rfl⟩
  | ok =>
    have hcheck : checks cfg pre e c = _ := Limiter.check_of_requireCost hcost
    rw [hcheck]
    show (_ ∧ (check cfg _ _ _).result.allowed = false) ∨
      ((check cfg _ _ _).result.allowed = true ∧ _)
    rcases lt_or_ge cfg.limit ((survivors cfg (e.pending (prefixer pre c.1) c.2.now)
      c.2.now).length + ⌈c.2.cost⌉) with hfull | hfits
    · have hdenied := denied_iff.mpr hfull
      exact .inl ⟨Entries.applySync_of_not_persist (keeps cfg _ _ _ hdenied), hdenied⟩
    · obtain ⟨out, hout⟩ : ∃ out, out = check cfg (e.pending (prefixer pre c.1) c.2.now) c.2.now
          c.2.cost := ⟨_, rfl⟩
      have hpersist : out.persist = true := by rw [hout, check_eq, if_pos hfits]
      have hstate : out.state = some (record (survivors cfg (e.pending (prefixer pre c.1) c.2.now)
          c.2.now) c.2.now ⌈c.2.cost⌉.toNat) := by
        rw [hout, check_eq, if_pos hfits, record]
      have httl : out.ttlMs = cfg.windowMs := by rw [hout, check_eq, if_pos hfits]
      have hallowed : out.result.allowed = true := by rw [hout, check_eq, if_pos hfits]
      rw [hout] at hpersist hstate httl hallowed
      refine .inr ⟨hallowed, Int.ceil_pos.mpr (pos_of_requireCost hcost), hfits, ?_⟩
      refine (Entries.applySync_of_persist hpersist).trans ?_
      show Function.update e _ ((check cfg _ _ _).state.map fun state =>
        (state, c.2.now + max 0 (check cfg _ _ _).ttlMs)) = _
      rw [hstate, httl, max_eq_right cfg.windowMs_pos.le]
      rfl

/-- The answer to an accepted cost is that of the transform, on what is found of the key. -/
theorem checks_eq_ok {cfg : Config} {pre : Option String} {e : Entries (List ℚ)}
    {c : String × Call} {decision : Decision} (h : (checks cfg pre e c).2 = .ok decision) :
    decision = (check cfg (e.pending (prefixer pre c.1) c.2.now) c.2.now c.2.cost).result := by
  cases hcost : requireCost c.2.cost with
  | error err =>
    rw [checks, Limiter.check, hcost] at h
    cases h
  | ok =>
    rw [checks, Limiter.check_of_requireCost hcost] at h
    exact (Except.ok.inj h).symm

/-! ### The entry of a key -/

/-- The entry of a key holds the trailing window, of the check that wrote it, of the units admitted
by `now`, and no narrow interval has more of them than the limit. -/
structure Tracks (cfg : Config) (now : ℚ) (entry : Option (List ℚ × ℚ)) (units : List ℚ) :
    Prop where
  sorted : units.Pairwise (· ≤ ·)
  le_now : ∀ s ∈ units, s ≤ now
  bounded : ∀ I : ℚ → Bool, Narrow cfg.windowMs I → (units.countP I : ℚ) ≤ cfg.limit
  none_of_none : entry = none → units = []
  kept : ∀ log due, entry = some (log, due) → ∃ t ≤ now, (∀ s ∈ units, s ≤ t) ∧
    log = trailing cfg.windowMs t units ∧ due = t + cfg.windowMs

variable {cfg : Config} {now : ℚ} {entry : Option (List ℚ × ℚ)} {units : List ℚ}

theorem tracks_nil (cfg : Config) (now : ℚ) : Tracks cfg now none [] where
  sorted := .nil
  le_now _ hs := by cases hs
  bounded I _ := by
    rw [List.countP_nil, Nat.cast_zero]
    exact cfg.limit_pos.le
  none_of_none _ := rfl
  kept _ _ h := by cases h

theorem Tracks.mono {now' : ℚ} (h : Tracks cfg now entry units) (hle : now ≤ now') :
    Tracks cfg now' entry units where
  sorted := h.sorted
  le_now s hs := (h.le_now s hs).trans hle
  bounded := h.bounded
  none_of_none := h.none_of_none
  kept log due hentry := by
    obtain ⟨t, ht, hkept⟩ := h.kept log due hentry
    exact ⟨t, ht.trans hle, hkept⟩

/-- **The log a check prunes is the trailing window.** -/
theorem Tracks.survivors_eq (h : Tracks cfg now entry units) :
    survivors cfg (entry.bind fun e => if e.2 ≤ now then none else some e.1) now
      = trailing cfg.windowMs now units := by
  cases hentry : entry with
  | none =>
    rw [h.none_of_none hentry]
    rfl
  | some e =>
    obtain ⟨t, ht, hle, hlog, hdue⟩ := h.kept e.1 e.2 hentry
    rw [Option.bind_some]
    split
    · rename_i hexpired
      have hstale : ∀ s ∈ units, s ≤ now - cfg.windowMs := by
        intro s hs
        have hs' : s ≤ t := hle s hs
        rw [hdue] at hexpired
        linarith
      rw [trailing_eq_nil hstale]
      rfl
    · have hmem : ∀ s ∈ e.1, s ∈ units ∧ s ≤ now := by
        intro s hs
        rw [hlog] at hs
        have hs' := (mem_trailing.mp hs).1
        exact ⟨hs', h.le_now s hs'⟩
      have hsorted : e.1.Pairwise (· ≤ ·) := by
        rw [hlog]
        exact h.sorted.sublist List.filter_sublist
      rw [survivors, Rounding.fl_exact, Option.getD_some,
        dropWhile_eq_trailing hsorted fun s hs => (hmem s hs).2, hlog, trailing_trailing hle ht]

/-- What is admitted is recorded, and keeps to the limit. -/
theorem Tracks.record {n : ℕ} (h : Tracks cfg now entry units)
    (hfits : ((trailing cfg.windowMs now units).length : ℚ) + n ≤ cfg.limit) :
    Tracks cfg now (some (TrailingWindow.record (trailing cfg.windowMs now units) now n,
      now + cfg.windowMs)) (TrailingWindow.record units now n) where
  sorted := pairwise_record h.sorted h.le_now
  le_now _ hs := le_of_mem_record h.le_now hs
  bounded I hI := by
    have hfloor : ∀ k : ℕ, (k : ℚ) ≤ cfg.limit ↔ k ≤ ⌊cfg.limit⌋₊ := fun k =>
      (Nat.le_floor_iff cfg.limit_pos.le).symm
    rw [hfloor]
    refine countP_record_le hI h.le_now ((hfloor _).mp (h.bounded I hI)) ?_
    rw [← hfloor, Nat.cast_add]
    exact hfits
  none_of_none hnone := by cases hnone
  kept log due hentry := by
    obtain ⟨rfl, rfl⟩ := Prod.mk.inj (Option.some.inj hentry)
    refine ⟨now, le_rfl, fun s hs => le_of_mem_record h.le_now hs, ?_, rfl⟩
    exact (trailing_record cfg.windowMs_pos n).symm

/-! ### Checks in order -/

/-- **Entries track what was admitted, after any checks in order.** -/
theorem tracks_after (cfg : Config) (pre : Option String) (key : String)
    (cs : List (String × Call)) (hsorted : cs.Pairwise fun c c' => c.2.now ≤ c'.2.now) {now : ℚ}
    (hnow : ∀ c ∈ cs, c.2.now ≤ now) :
    Tracks cfg now (after (checks cfg pre) Entries.empty cs (prefixer pre key))
      (admittedUnits cfg pre key cs) := by
  induction cs using List.reverseRecOn generalizing now with
  | nil => exact tracks_nil cfg now
  | append_singleton cs c ih =>
    obtain ⟨hcs, -, hlast⟩ := List.pairwise_append.mp hsorted
    have hc : c.2.now ≤ now := hnow c (List.mem_append_right _ (List.mem_singleton_self c))
    have htracks := ih hcs fun c' hc' => hlast c' hc' c (List.mem_singleton_self c)
    rw [after_append, after_cons, after_nil, admittedUnits_concat]
    refine Tracks.mono ?_ hc
    obtain ⟨e, he⟩ : ∃ e, e = after (checks cfg pre) Entries.empty cs := ⟨_, rfl⟩
    rw [← he] at htracks ⊢
    rcases checks_cases cfg pre e c with ⟨hkept, hdenied⟩ | ⟨hadmits, hpos, hfits, hnext⟩
    · rw [hkept, unitsOf, if_neg (by rw [hdenied]; exact fun h => Bool.false_ne_true h.2),
        List.append_nil]
      exact htracks
    · by_cases hkey : c.1 = key
      · have hpruned : survivors cfg (e.pending (prefixer pre c.1) c.2.now) c.2.now
            = trailing cfg.windowMs c.2.now (admittedUnits cfg pre key cs) := by
          rw [hkey]
          exact htracks.survivors_eq
        rw [hpruned] at hfits hnext
        rw [hnext, hkey, Function.update_self, unitsOf, if_pos ⟨hkey, hadmits⟩]
        refine htracks.record ?_
        rw [cast_units hpos.le]
        exact hfits
      · have hne : prefixer pre key ≠ prefixer pre c.1 := fun h =>
          hkey (prefixer_injective pre h).symm
        rw [hnext, Function.update_of_ne hne, unitsOf, if_neg fun h => hkey h.1, List.append_nil]
        exact htracks

/-- A check of an entry that tracks decides by the trailing window. -/
theorem exact_of_tracks {cfg : Config} {pre : Option String} {cs : List (String × Call)}
    {c : String × Call} (h : Tracks cfg c.2.now
      (after (checks cfg pre) Entries.empty cs (prefixer pre c.1)) (admittedUnits cfg pre c.1 cs)) :
    Exact cfg pre cs c := by
  have hpruned := h.survivors_eq
  refine ⟨hpruned, fun decision hanswer => ?_, fun decision hanswer hallowed => ?_⟩
  · rw [checks_eq_ok hanswer, denied_iff]
    show cfg.limit < ((survivors cfg (Entries.pending _ _ _) _).length : ℚ) + _ ↔ _
    rw [Entries.pending, hpruned]
  · have hadmits :
        admits (checks cfg pre (after (checks cfg pre) Entries.empty cs) c).2 = true := by
      rw [hanswer]
      exact hallowed
    rw [after_append, after_cons, after_nil, admittedUnits_concat, unitsOf, if_pos ⟨rfl, hadmits⟩]
    rcases checks_cases cfg pre (after (checks cfg pre) Entries.empty cs) c with
      ⟨-, hdenied⟩ | ⟨-, -, -, hnext⟩
    · rw [hdenied] at hadmits
      exact absurd hadmits Bool.false_ne_true
    · have hlives : ¬ c.2.now + cfg.windowMs ≤ c.2.now :=
        not_le.mpr (lt_add_of_pos_right _ cfg.windowMs_pos)
      rw [hnext, Entries.pending, Function.update_self, Option.bind_some, if_neg hlives,
        Entries.pending, hpruned, ← trailing_record cfg.windowMs_pos]
      rfl

end ThrottleKit.SlidingWindowLog
