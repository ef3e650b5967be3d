import Mathlib.Algebra.Order.Field.Rat
import Mathlib.Tactic.Linarith
import ThrottleKit.Lib.Machine
import ThrottleKit.Stores.TimingWheel

/-!
# Runs of the timing wheel

Which keys an advance expires. A key is looked at when the hand comes to its slot, and a key that is
not due then is taken for one of a later lap. It may be one that is due later in the very tick the
hand came to: it is left in a slot behind the hand, and stays there for a lap.

As long as no advance comes upon such a key, every key sits in the slot that a new schedule of it
would choose, so the hand comes to every key in time.

## Main definitions

* `Act`, `machine` — schedules, cancellations and advances, in any order
* `Filed` — the slots hold the scheduled keys, each in its slot
* `Settled` — and each in the slot that it would be given now
* `InTime` — no advance comes upon a key of a later instant of the tick, and an advance that does
  not move the hand comes upon no key of an earlier tick
* `Advance.NoneEarly`, `Advance.NoneLate` — what an advance is to do

## Main results

* `Filed.mem_expired` — an advance that comes to the slot of a key expires it when it is due
* `Settled.advance` — what an advance leaves, where it comes upon no key of a later instant
* `lingers` — a key of a later instant of the tick is left for a lap
* `advances_punctual` — in every run no key expires early, and in a run `InTime` none is late
-/

namespace ThrottleKit.TimingWheel

variable {o : Options} {w : Wheel} {now : ℚ} {key : String}

/-! ### Slots and ticks -/

theorem n_pos (o : Options) : 0 < o.n := by
  rw [Options.n]
  omega

/-- The slot of a tick is the tick modulo the number of slots. -/
theorem slotForTick_eq_emod (o : Options) (tick : ℤ) : slotForTick o tick = tick % o.n := by
  have hn := n_pos o
  rw [slotForTick, Int.tmod_eq_emod]
  have hlo := Int.emod_nonneg tick hn.ne'
  have hhi := Int.emod_lt_of_pos tick hn
  split_ifs <;> omega

theorem tick_pos (o : Options) : (0 : ℚ) < o.tick := by
  have : 0 < o.tick := by
    rw [Options.tick]
    omega
  exact_mod_cast this

theorem tickOf_mono (o : Options) {t t' : ℚ} (h : t ≤ t') : tickOf o t ≤ tickOf o t' :=
  Int.floor_mono (div_le_div_of_nonneg_right h (tick_pos o).le)

theorem mem_ticksTo {t : ℤ} : t ∈ ticksTo o w now ↔
    w.lastTick < t ∧ t ≤ w.lastTick + min (tickOf o now - w.lastTick) o.n := by
  simp only [ticksTo, List.mem_map, List.bind_eq_flatMap, List.pure_def, List.mem_flatMap,
    List.mem_range, List.mem_singleton]
  constructor
  · rintro ⟨_, ⟨i, hi, rfl⟩, rfl⟩
    omega
  · rintro ⟨hlo, hhi⟩
    exact ⟨t - w.lastTick - 1, ⟨(t - w.lastTick - 1).toNat, by omega, by omega⟩, by omega⟩

/-- Among the ticks that an advance visits is one with the slot of a given tick ahead. -/
theorem exists_visited {tick : ℤ} (hlt : w.lastTick < tick) (hle : tick ≤ tickOf o now) :
    ∃ t ∈ ticksTo o w now, slotForTick o t = slotForTick o tick := by
  have hn := n_pos o
  have hlo := Int.emod_nonneg (tick - w.lastTick - 1) hn.ne'
  have hhi := Int.emod_lt_of_pos (tick - w.lastTick - 1) hn
  have hself : (tick - w.lastTick - 1) % o.n ≤ tick - w.lastTick - 1 := by
    have hdiv : 0 ≤ (tick - w.lastTick - 1) / o.n := Int.ediv_nonneg (by omega) hn.le
    linarith [mul_nonneg hn.le hdiv, Int.emod_add_mul_ediv (tick - w.lastTick - 1) o.n]
  refine ⟨w.lastTick + ((tick - w.lastTick - 1) % o.n + 1), mem_ticksTo.mpr (by omega), ?_⟩
  rw [slotForTick_eq_emod, slotForTick_eq_emod]
  have hsum : w.lastTick + ((tick - w.lastTick - 1) % o.n + 1)
      = (w.lastTick + 1) + (tick - w.lastTick - 1) % o.n := by ring
  rw [hsum, Int.add_emod_emod]
  congr 1
  ring

/-! ### The slots hold the scheduled keys -/

/-- The slots hold the scheduled keys, each once and in its slot. -/
structure Filed (w : Wheel) : Prop where
  mem_slots : ∀ i key, key ∈ w.slots i ↔ ∃ e, w.entries key = some e ∧ e.slot = some i
  nodup : ∀ i, (w.slots i).Nodup

theorem mem_place {slots : ℤ → List String} {slot : Option ℤ} {k : String} {i : ℤ} :
    k ∈ place slots slot key i ↔ k ∈ slots i ∨ k = key ∧ slot = some i := by
  cases slot with
  | none => simp [place]
  | some j =>
    rw [place]
    by_cases hij : i = j
    · subst hij
      rw [Function.update_self]
      split_ifs with hmem
      · constructor
        · exact .inl
        · rintro (h | ⟨rfl, -⟩)
          · exact h
          · exact hmem
      · simp
    · rw [Function.update_of_ne hij]
      have hne : (some j : Option ℤ) ≠ some i := fun h => hij (Option.some.inj h).symm
      simp [hne]

theorem mem_unplace {slots : ℤ → List String} (hnodup : ∀ i, (slots i).Nodup) {slot : Option ℤ}
    {k : String} {i : ℤ} :
    k ∈ unplace slots slot key i ↔ k ∈ slots i ∧ ¬ (k = key ∧ slot = some i) := by
  cases slot with
  | none => simp [unplace]
  | some j =>
    rw [unplace]
    by_cases hij : i = j
    · subst hij
      rw [Function.update_self, (hnodup i).mem_erase_iff]
      simp [and_comm]
    · rw [Function.update_of_ne hij]
      have hne : (some j : Option ℤ) ≠ some i := fun h => hij (Option.some.inj h).symm
      simp [hne]

theorem nodup_place {slots : ℤ → List String} (hnodup : ∀ i, (slots i).Nodup) (slot : Option ℤ)
    (key : String) (i : ℤ) : (place slots slot key i).Nodup := by
  cases slot with
  | none => exact hnodup i
  | some j =>
    rw [place]
    by_cases hij : i = j
    · subst hij
      rw [Function.update_self]
      split_ifs with hmem
      · exact hnodup i
      · exact List.nodup_append.mpr ⟨hnodup i, by simp, by
          rintro a ha b hb rfl
          exact hmem (List.mem_singleton.mp hb ▸ ha)⟩
    · rw [Function.update_of_ne hij]
      exact hnodup i

theorem nodup_unplace {slots : ℤ → List String} (hnodup : ∀ i, (slots i).Nodup) (slot : Option ℤ)
    (key : String) (i : ℤ) : (unplace slots slot key i).Nodup := by
  cases slot with
  | none => exact hnodup i
  | some j =>
    rw [unplace]
    by_cases hij : i = j
    · subst hij
      rw [Function.update_self]
      exact (hnodup i).erase key
    · rw [Function.update_of_ne hij]
      exact hnodup i

theorem filed_start (o : Options) (now : ℚ) : Filed (Wheel.start o now) where
  mem_slots i key := by simp [Wheel.start]
  nodup i := List.nodup_nil

/-- The slots once `key` has been put into `slot`. -/
theorem Filed.update {slots : ℤ → List String} (h : Filed w) {e : WheelEntry}
    (hnodup : ∀ i, (slots i).Nodup)
    (hslots : ∀ i k, k ∈ slots i ↔ if k = key then e.slot = some i else k ∈ w.slots i)
    (tick : ℤ) : Filed ⟨slots, Function.update w.entries key (some e), tick⟩ where
  mem_slots i k := by
    show k ∈ slots i ↔ ∃ e', Function.update w.entries key (some e) k = some e' ∧ _
    rw [hslots i k]
    by_cases hk : k = key
    · subst hk
      simp
    · rw [if_neg hk, Function.update_of_ne hk]
      exact h.mem_slots i k
  nodup := hnodup

theorem Filed.set (h : Filed w) (key : String) (exp : Deadline) : Filed (w.set o key exp) := by
  unfold Wheel.set
  cases hprev : w.entries key with
  | none =>
    have hnot : ∀ i, key ∉ w.slots i := by
      intro i hmem
      obtain ⟨e, he, -⟩ := (h.mem_slots i key).mp hmem
      rw [hprev] at he
      cases he
    refine h.update (nodup_place h.nodup _ _) (fun i k => ?_) _
    dsimp only
    rw [mem_place]
    by_cases hk : k = key
    · subst hk
      simp [hnot i]
    · simp [hk]
  | some prev =>
    have hself : ∀ i, key ∈ w.slots i ↔ prev.slot = some i := by
      intro i
      rw [h.mem_slots, hprev]
      simp
    dsimp only
    split_ifs with hslot
    · have hnodup := nodup_unplace h.nodup prev.slot key
      refine h.update (nodup_place hnodup _ _) (fun i k => ?_) _
      rw [mem_place, mem_unplace h.nodup]
      by_cases hk : k = key
      · subst hk
        rw [hself i]
        simp
      · simp [hk]
    · refine h.update h.nodup (fun i k => ?_) _
      by_cases hk : k = key
      · subst hk
        rw [if_pos rfl, hself i, not_not.mp hslot]
      · rw [if_neg hk]

/-- A wheel without `key`. -/
theorem Filed.drop {e : WheelEntry} (h : Filed w) (he : w.entries key = some e) (tick : ℤ) :
    Filed ⟨unplace w.slots e.slot key, Function.update w.entries key none, tick⟩ where
  mem_slots i k := by
    show k ∈ unplace w.slots e.slot key i ↔ ∃ e', Function.update w.entries key none k = some e' ∧ _
    rw [mem_unplace h.nodup, h.mem_slots]
    by_cases hk : k = key
    · subst hk
      simp [he]
    · simp [hk]
  nodup := nodup_unplace h.nodup e.slot key

theorem Filed.delete (h : Filed w) (key : String) : Filed (w.delete key) := by
  unfold Wheel.delete
  split
  · rename_i e he
    exact h.drop he _
  · exact h

/-! ### An advance -/

variable {r : Wheel × List String}

/-- One key of the slot that is visited. -/
theorem Filed.sweepKey {slot : ℤ} (h : Filed r.1)
    (hslot : ∀ e, r.1.entries key = some e → e.slot = some slot) :
    Filed (sweepKey now slot r key).1 := by
  unfold TimingWheel.sweepKey
  split
  · rename_i e he
    split
    · have hdrop := h.drop he r.1.lastTick
      rw [hslot e he] at hdrop
      exact hdrop
    · exact h
  · exact h

/-- No key comes back. -/
theorem entries_sweepKey {slot : ℤ} {k : String} {e : WheelEntry}
    (h : (sweepKey now slot r key).1.entries k = some e) : r.1.entries k = some e := by
  unfold sweepKey at h
  split at h
  · split at h
    · have hupdate : Function.update r.1.entries key none k = some e := h
      by_cases hk : k = key
      · subst hk
        rw [Function.update_self] at hupdate
        cases hupdate
      · rwa [Function.update_of_ne hk] at hupdate
    · exact h
  · exact h

theorem Filed.foldl_sweepKey {slot : ℤ} (keys : List String) (h : Filed r.1)
    (hslot : ∀ key ∈ keys, ∀ e, r.1.entries key = some e → e.slot = some slot) :
    Filed (keys.foldl (TimingWheel.sweepKey now slot) r).1 := by
  induction keys generalizing r with
  | nil => exact h
  | cons key keys ih =>
    refine ih (h.sweepKey (hslot key List.mem_cons_self)) fun k hk e he => ?_
    exact hslot k (List.mem_cons_of_mem _ hk) e (entries_sweepKey he)

theorem Filed.sweepTick (h : Filed r.1) (tick : ℤ) : Filed (sweepTick o now r tick).1 := by
  refine h.foldl_sweepKey _ fun key hkey e he => ?_
  obtain ⟨e', he', hslot⟩ := (h.mem_slots _ key).mp hkey
  rw [he] at he'
  rwa [Option.some.inj he']

theorem Filed.foldl_sweepTick (ticks : List ℤ) (h : Filed r.1) :
    Filed (ticks.foldl (TimingWheel.sweepTick o now) r).1 := by
  induction ticks generalizing r with
  | nil => exact h
  | cons tick ticks ih => exact ih (h.sweepTick tick)

theorem Filed.advance (h : Filed w) (now : ℚ) : Filed (w.advance o now).1 := by
  unfold Wheel.advance
  split
  · exact h
  · have hr : Filed ((ticksTo o w now).foldl (TimingWheel.sweepTick o now) (w, [])).1 :=
      Filed.foldl_sweepTick (ticksTo o w now) h
    exact ⟨hr.mem_slots, hr.nodup⟩

/-! What has expired stays expired, and a due key of a slot that is visited expires. -/

theorem mem_expired_sweepKey {slot : ℤ} {k : String} (h : k ∈ r.2) :
    k ∈ (sweepKey now slot r key).2 := by
  unfold sweepKey
  split
  · split
    · exact List.mem_append_left _ h
    · exact h
  · exact h

theorem mem_expired_foldl_sweepKey {slot : ℤ} {k : String} (keys : List String) (h : k ∈ r.2) :
    k ∈ (keys.foldl (sweepKey now slot) r).2 := by
  induction keys generalizing r with
  | nil => exact h
  | cons key keys ih => exact ih (mem_expired_sweepKey h)

theorem mem_expired_foldl_sweepTick {k : String} (ticks : List ℤ) (h : k ∈ r.2) :
    k ∈ (ticks.foldl (sweepTick o now) r).2 := by
  induction ticks generalizing r with
  | nil => exact h
  | cons tick ticks ih => exact ih (mem_expired_foldl_sweepKey _ h)

theorem mem_expired_of_mem {slot : ℤ} {e : WheelEntry} (keys : List String) (hs : Swept now w r)
    (he : w.entries key = some e) (hpassed : e.exp.passed now = true) (hmem : key ∈ keys) :
    key ∈ (keys.foldl (sweepKey now slot) r).2 := by
  induction keys generalizing r with
  | nil => cases hmem
  | cons k keys ih =>
    rcases List.mem_cons.mp hmem with rfl | hmem
    · refine mem_expired_foldl_sweepKey keys ?_
      have hentry := hs.entries key
      by_cases hexpired : key ∈ r.2
      · exact mem_expired_sweepKey hexpired
      · rw [if_neg hexpired, he] at hentry
        rw [sweepKey, hentry]
        dsimp only
        rw [if_pos hpassed]
        exact List.mem_append_right _ (List.mem_singleton_self key)
    · exact ih (hs.sweepKey _ _) hmem

theorem mem_expired_of_visited {e : WheelEntry} (ticks : List ℤ) (h : Filed r.1)
    (hs : Swept now w r) (he : w.entries key = some e) (hpassed : e.exp.passed now = true)
    {tick : ℤ} (htick : tick ∈ ticks) (hslot : e.slot = some (slotForTick o tick)) :
    key ∈ (ticks.foldl (sweepTick o now) r).2 := by
  induction ticks generalizing r with
  | nil => cases htick
  | cons t ticks ih =>
    rcases List.mem_cons.mp htick with rfl | htick
    · refine mem_expired_foldl_sweepTick ticks ?_
      by_cases hexpired : key ∈ r.2
      · exact mem_expired_foldl_sweepKey _ hexpired
      · have hentry := hs.entries key
        rw [if_neg hexpired, he] at hentry
        exact mem_expired_of_mem _ hs he hpassed ((h.mem_slots _ key).mpr ⟨e, hentry, hslot⟩)
    · exact ih (h.sweepTick t) (hs.foldl_sweepKey _ _) htick

/-- **An advance that comes to the slot of a key expires it when it is due.** -/
theorem Filed.mem_expired (h : Filed w) {e : WheelEntry} (he : w.entries key = some e)
    (hpassed : e.exp.passed now = true) (hmoves : w.lastTick < tickOf o now) {tick : ℤ}
    (htick : tick ∈ ticksTo o w now) (hslot : e.slot = some (slotForTick o tick)) :
    key ∈ (w.advance o now).2 := by
  rw [Wheel.advance, if_neg (by omega)]
  exact mem_expired_of_visited _ h (swept_refl now w) he hpassed htick hslot

theorem advance_of_le (h : tickOf o now ≤ w.lastTick) : w.advance o now = (w, []) := by
  rw [Wheel.advance, if_pos (by omega)]

theorem lastTick_advance (h : w.lastTick < tickOf o now) :
    (w.advance o now).1.lastTick = tickOf o now := by
  rw [Wheel.advance, if_neg (by omega)]

/-- What an advance leaves was there before, and did not expire. -/
theorem entries_advance {e : WheelEntry} (h : (w.advance o now).1.entries key = some e) :
    w.entries key = some e ∧ key ∉ (w.advance o now).2 := by
  rw [(advance_swept o w now).entries key] at h
  split_ifs at h with hkey
  exact ⟨h, hkey⟩

/-- A key that is not due stays. -/
theorem entries_advance_of_not_passed {e : WheelEntry} (he : w.entries key = some e)
    (h : e.exp.passed now = false) :
    key ∉ (w.advance o now).2 ∧ (w.advance o now).1.entries key = some e := by
  have hswept := advance_swept o w now
  have hkey : key ∉ (w.advance o now).2 := by
    intro hmem
    obtain ⟨e', he', hpassed⟩ := hswept.passed key hmem
    rw [he] at he'
    rw [← Option.some.inj he', h] at hpassed
    cases hpassed
  exact ⟨hkey, by rw [hswept.entries key, if_neg hkey, he]⟩

/-! ### Every key in the slot it would be given now -/

/-- Every key sits in the slot that a schedule of it would choose now. -/
structure Settled (o : Options) (w : Wheel) : Prop extends Filed w where
  placed : ∀ key e, w.entries key = some e → e.slot = slotFor o w e.exp

theorem settled_start (o : Options) (now : ℚ) : Settled o (Wheel.start o now) where
  toFiled := filed_start o now
  placed key e he := by cases he

theorem Settled.set (h : Settled o w) (key : String) (exp : Deadline) :
    Settled o (w.set o key exp) where
  toFiled := h.toFiled.set key exp
  placed k e he := by
    have hupdate : Function.update w.entries key (some ⟨exp, slotFor o w exp⟩) k = some e := he
    show e.slot = slotFor o w e.exp
    by_cases hk : k = key
    · subst hk
      rw [Function.update_self] at hupdate
      rw [← Option.some.inj hupdate]
    · rw [Function.update_of_ne hk] at hupdate
      exact h.placed k e hupdate

theorem lastTick_delete (w : Wheel) (key : String) : (w.delete key).lastTick = w.lastTick := by
  unfold Wheel.delete
  split <;> rfl

theorem slotFor_congr {w' : Wheel} (h : w'.lastTick = w.lastTick) (exp : Deadline) :
    slotFor o w' exp = slotFor o w exp := by
  unfold slotFor
  rw [h]

theorem Settled.delete (h : Settled o w) (key : String) : Settled o (w.delete key) where
  toFiled := h.toFiled.delete key
  placed k e he := by
    rw [slotFor_congr (lastTick_delete w key)]
    rw [delete_entries] at he
    by_cases hk : k = key
    · subst hk
      rw [Function.update_self] at he
      cases he
    · rw [Function.update_of_ne hk] at he
      exact h.placed k e he

/-- Where an advance comes upon no key of a later instant of the tick, it leaves the keys of later
ticks only. -/
theorem Settled.later_of_left (h : Settled o w) (hmoves : w.lastTick < tickOf o now)
    (hclear : ∀ key e t, w.entries key = some e → e.exp = .on t →
      tickOf o t = tickOf o now → t ≤ now)
    {e : WheelEntry} (he : (w.advance o now).1.entries key = some e) {t : ℚ} (ht : e.exp = .on t) :
    tickOf o now < tickOf o t := by
  obtain ⟨hentry, hleft⟩ := entries_advance he
  by_contra hle
  rw [not_lt] at hle
  have hdue : t ≤ now := by
    rcases hle.lt_or_eq with hlt | heq
    · by_contra hnot
      exact absurd (tickOf_mono o (not_le.mp hnot).le) (not_le.mpr hlt)
    · exact hclear key e t hentry ht heq
  obtain ⟨tick, htick, hslot⟩ := @exists_visited o w now
    (max (w.lastTick + 1) (tickOf o t)) (by omega) (by omega)
  refine hleft (h.mem_expired hentry ?_ hmoves htick ?_)
  · rw [ht]
    exact decide_eq_true hdue
  · rw [h.placed key e hentry, ht, hslot]
    rfl

theorem Settled.advance (h : Settled o w)
    (hclear : w.lastTick < tickOf o now → ∀ key e t, w.entries key = some e → e.exp = .on t →
      tickOf o t = tickOf o now → t ≤ now) :
    Settled o (w.advance o now).1 := by
  rcases lt_or_ge w.lastTick (tickOf o now) with hmoves | hstays
  · refine ⟨h.toFiled.advance now, fun key e he => ?_⟩
    rw [h.placed key e (entries_advance he).1]
    cases ht : e.exp with
    | never => rfl
    | on t =>
      have hlater := h.later_of_left hmoves (hclear hmoves) he ht
      unfold slotFor
      dsimp only
      rw [lastTick_advance hmoves, max_eq_right (by omega), max_eq_right (by omega)]
  · rwa [advance_of_le hstays]

/-! ### A key left behind -/

theorem mem_of_mem_expired {slot : ℤ} {k : String} (keys : List String)
    (h : k ∈ (keys.foldl (sweepKey now slot) r).2) : k ∈ r.2 ∨ k ∈ keys := by
  induction keys generalizing r with
  | nil => exact .inl h
  | cons key keys ih =>
    rcases ih h with hmem | hmem
    · unfold sweepKey at hmem
      split at hmem
      · split at hmem
        · rcases List.mem_append.mp hmem with hmem | hmem
          · exact .inl hmem
          · exact .inr (List.mem_singleton.mp hmem ▸ List.mem_cons_self)
        · exact .inl hmem
      · exact .inl hmem
    · exact .inr (List.mem_cons_of_mem _ hmem)

theorem slot_of_mem_expired {k : String} (ticks : List ℤ) (h : Filed r.1) (hs : Swept now w r)
    (hk : k ∈ (ticks.foldl (sweepTick o now) r).2) :
    k ∈ r.2 ∨ ∃ e, w.entries k = some e ∧ ∃ tick ∈ ticks, e.slot = some (slotForTick o tick) := by
  induction ticks generalizing r with
  | nil => exact .inl hk
  | cons tick ticks ih =>
    rcases ih (h.sweepTick tick) (hs.foldl_sweepKey _ _) hk with hmem | ⟨e, he, t, ht, hslot⟩
    · rcases mem_of_mem_expired _ hmem with hmem | hmem
      · exact .inl hmem
      · obtain ⟨e, he, hslot⟩ := (h.mem_slots _ k).mp hmem
        have hentry := hs.entries k
        rw [he] at hentry
        split_ifs at hentry
        exact .inr ⟨e, hentry.symm, tick, List.mem_cons_self, hslot⟩
    · exact .inr ⟨e, he, t, List.mem_cons_of_mem _ ht, hslot⟩

/-- An advance expires keys of the slots that it comes to only. -/
theorem Filed.slot_of_expired (h : Filed w) (hk : key ∈ (w.advance o now).2) :
    ∃ e, w.entries key = some e ∧ ∃ tick ∈ ticksTo o w now, e.slot = some (slotForTick o tick) := by
  rw [Wheel.advance] at hk
  split_ifs at hk with hstays
  · cases hk
  · exact (slot_of_mem_expired _ h (swept_refl now w) hk).resolve_left List.not_mem_nil

/-- **A key of a later instant of the tick is left for a lap.** The next advances by less than a lap
leave it where it is, also when its tick is over. -/
theorem lingers (h : Settled o w) {e : WheelEntry} {t now' : ℚ} (he : w.entries key = some e)
    (ht : e.exp = .on t) (hmoves : w.lastTick < tickOf o now) (hsame : tickOf o t = tickOf o now)
    (hlater : now < t) (hlap : tickOf o now' < tickOf o now + o.n) :
    ((w.advance o now).1.advance o now').1.entries key = some e := by
  have hnot : e.exp.passed now = false := by
    rw [ht]
    exact decide_eq_false (not_le.mpr hlater)
  have hleft := (entries_advance_of_not_passed (o := o) he hnot).2
  have hkey : key ∉ ((w.advance o now).1.advance o now').2 := by
    intro hmem
    obtain ⟨e', he', tick, htick, hslot⟩ := (h.toFiled.advance now).slot_of_expired hmem
    rw [hleft] at he'
    obtain rfl := Option.some.inj he'
    obtain ⟨hlo, hhi⟩ := mem_ticksTo.mp htick
    rw [lastTick_advance hmoves] at hlo hhi
    have hplaced : e.slot = some (slotForTick o (tickOf o now)) := by
      rw [h.placed key e he, ht]
      unfold slotFor
      dsimp only
      rw [max_eq_right (by omega), hsame]
    rw [hplaced, Option.some.injEq, slotForTick_eq_emod, slotForTick_eq_emod] at hslot
    have hzero : (tick - tickOf o now) % o.n = 0 :=
      Int.emod_eq_emod_iff_emod_sub_eq_zero.mp hslot.symm
    rw [Int.emod_eq_of_lt (by omega) (by omega)] at hzero
    omega
  rw [(advance_swept o _ now').entries key, if_neg hkey, hleft]

/-! ### Runs -/

/-- One call. -/
inductive Act
  | set (key : String) (exp : Deadline)
  | delete (key : String)
  | advance (now : ℚ)

/-- An advance with the wheel before and after it, and the keys that it expired. -/
structure Advance where
  now : ℚ
  before : Wheel
  after : Wheel
  expired : List String

/-- One call on a wheel. -/
def machine (o : Options) : Machine Wheel Act Advance
  | w, .set key exp => some (w.set o key exp, [])
  | w, .delete key => some (w.delete key, [])
  | w, .advance now =>
    some ((w.advance o now).1, [⟨now, w, (w.advance o now).1, (w.advance o now).2⟩])

/-- A key whose expiry is after `now` is not expired. -/
def Advance.NoneEarly (a : Advance) : Prop :=
  ∀ key e, a.before.entries key = some e → e.exp.passed a.now = false →
    key ∉ a.expired ∧ a.after.entries key = some e

/-- No key remains whose expiry tick is before the tick of `now`. -/
def Advance.NoneLate (o : Options) (a : Advance) : Prop :=
  ∀ key e t, a.after.entries key = some e → e.exp = .on t → tickOf o a.now ≤ tickOf o t

/-- An advance that moves the hand comes upon no key of a later instant of the tick, and one that
does not move it comes upon no key of an earlier tick. -/
def InTime (o : Options) (w : Wheel) : Act → Prop
  | .advance now => ∀ key e t, w.entries key = some e → e.exp = .on t →
      if w.lastTick < tickOf o now then tickOf o t = tickOf o now → t ≤ now
      else w.lastTick ≤ tickOf o t
  | _ => True

theorem noneEarly_advance (o : Options) (w : Wheel) (now : ℚ) :
    Advance.NoneEarly ⟨now, w, (w.advance o now).1, (w.advance o now).2⟩ :=
  fun _ _ he hnot => entries_advance_of_not_passed he hnot

theorem InTime.clear (h : InTime o w (.advance now)) (hmoves : w.lastTick < tickOf o now) :
    ∀ key e t, w.entries key = some e → e.exp = .on t → tickOf o t = tickOf o now → t ≤ now := by
  intro key e t he ht
  have := h key e t he ht
  rwa [if_pos hmoves] at this

theorem noneLate_advance (h : Settled o w) (hin : InTime o w (.advance now)) :
    Advance.NoneLate o ⟨now, w, (w.advance o now).1, (w.advance o now).2⟩ := by
  intro key e t he ht
  rcases lt_or_ge w.lastTick (tickOf o now) with hmoves | hstays
  · exact (h.later_of_left hmoves (hin.clear hmoves) he ht).le
  · have hentry : w.entries key = some e := (entries_advance he).1
    have := hin key e t hentry ht
    rw [if_neg (not_lt.mpr hstays)] at this
    exact hstays.trans this

/-- **Every run of schedules, cancellations and advances expires no key early, and none late where
every advance is `InTime`.** -/
theorem advances_punctual (o : Options) (now₀ : ℚ) {ok : Wheel → Act → Prop} {log : List Advance}
    {w : Wheel} (h : Machine.Run (machine o) ok (Wheel.start o now₀) log w) :
    (∀ a ∈ log, a.NoneEarly) ∧
      ((∀ w act, ok w act → InTime o w act) → ∀ a ∈ log, a.NoneLate o) := by
  constructor
  · refine h.invariant (I := fun _ log => ∀ a ∈ log, a.NoneEarly) (by simp) ?_
    intro w log act w' new hlog _ hstep a ha
    rcases List.mem_append.mp ha with ha | ha
    · exact hlog a ha
    · cases act with
      | set key exp =>
        obtain ⟨-, rfl⟩ := Prod.mk.inj (Option.some.inj hstep)
        cases ha
      | delete key =>
        obtain ⟨-, rfl⟩ := Prod.mk.inj (Option.some.inj hstep)
        cases ha
      | advance now =>
        obtain ⟨-, rfl⟩ := Prod.mk.inj (Option.some.inj hstep)
        rw [List.mem_singleton.mp ha]
        exact noneEarly_advance o w now
  · intro hok
    refine (h.invariant (I := fun w log => Settled o w ∧ ∀ a ∈ log, a.NoneLate o)
      ⟨settled_start o now₀, by simp⟩ ?_).2
    rintro w log act w' new ⟨hw, hlog⟩ hact hstep
    have hin := hok w act hact
    cases act with
    | set key exp =>
      obtain ⟨rfl, rfl⟩ := Prod.mk.inj (Option.some.inj hstep)
      rw [List.append_nil]
      exact ⟨hw.set key exp, hlog⟩
    | delete key =>
      obtain ⟨rfl, rfl⟩ := Prod.mk.inj (Option.some.inj hstep)
      rw [List.append_nil]
      exact ⟨hw.delete key, hlog⟩
    | advance now =>
      obtain ⟨rfl, rfl⟩ := Prod.mk.inj (Option.some.inj hstep)
      refine ⟨hw.advance fun hmoves => hin.clear hmoves, fun a ha => ?_⟩
      rcases List.mem_append.mp ha with ha | ha
      · exact hlog a ha
      · rw [List.mem_singleton.mp ha]
        exact noneLate_advance hw hin

/-- The defaults: ticks of a second, 512 slots. -/
def seconds : Options := ⟨1000, 512⟩

/-- A wheel with one key, which expires at 1500. -/
def oneKey : Wheel := (Wheel.start seconds 0).set seconds "k" (.on 1500)

theorem run_oneKey (ok : Wheel → Act → Prop)
    (h : ok (Wheel.start seconds 0) (.set "k" (.on 1500))) :
    Machine.Run (machine seconds) ok (Wheel.start seconds 0) [] oneKey :=
  .snoc (a := .set "k" (.on 1500)) .nil h rfl

/-- A second key, which expires at 3000. -/
def twoKeys : Wheel := oneKey.set seconds "l" (.on 3000)

theorem due_twoKeys {key : String} {e : WheelEntry} {t : ℚ} (he : twoKeys.entries key = some e)
    (ht : e.exp = .on t) : t = 1500 ∨ t = 3000 := by
  have hentry : Function.update (Function.update (fun _ => none) "k" _) "l" _ key = some e := he
  by_cases hl : key = "l"
  · subst hl
    rw [Function.update_self] at hentry
    obtain rfl := Option.some.inj hentry
    exact .inr (Deadline.on.inj ht).symm
  · rw [Function.update_of_ne hl] at hentry
    by_cases hk : key = "k"
    · subst hk
      rw [Function.update_self] at hentry
      obtain rfl := Option.some.inj hentry
      exact .inl (Deadline.on.inj ht).symm
    · rw [Function.update_of_ne hk] at hentry
      cases hentry

theorem advances_punctual_twoKeys : ∃ log w,
    Machine.Run (machine seconds) (InTime seconds) (Wheel.start seconds 0) log w ∧
      log.map Advance.now = [1800, 3500] ∧ log.map Advance.expired = [["k"], ["l"]] ∧
      (∀ a ∈ log, a.NoneEarly) ∧ ∀ a ∈ log, a.NoneLate seconds := by
  have hfirst : InTime seconds twoKeys (.advance 1800) := by
    intro key e t he ht
    rw [if_pos (by decide +kernel)]
    rcases due_twoKeys he ht with rfl | rfl
    · exact fun _ => by norm_num
    · exact fun htick => absurd htick (by decide +kernel)
  have hsecond : InTime seconds (twoKeys.advance seconds 1800).1 (.advance 3500) := by
    intro key e t he ht
    rw [if_pos (by decide +kernel)]
    rcases due_twoKeys (entries_advance he).1 ht with rfl | rfl
    · exact fun _ => by norm_num
    · exact fun _ => by norm_num
  have hset : InTime seconds oneKey (.set "l" (.on 3000)) := trivial
  have hrun := (((run_oneKey (InTime seconds) trivial).snoc hset rfl).snoc hfirst rfl).snoc
    hsecond rfl
  exact ⟨_, _, hrun, rfl, by decide +kernel, (advances_punctual seconds 0 hrun).1,
    (advances_punctual seconds 0 hrun).2 fun _ _ h => h⟩

/-- An advance to 1200 comes upon the key, which is due at 1500, and the next one, to 2000, leaves
it behind. -/
theorem late_key_left : ∃ log w,
    Machine.Run (machine seconds) (fun _ _ => True) (Wheel.start seconds 0) log w ∧
      log.map Advance.now = [1200, 2000] ∧ ¬ ∀ a ∈ log, a.NoneLate seconds := by
  have hrun := ((run_oneKey (fun _ _ => True) trivial).snoc (a := .advance 1200) trivial rfl).snoc
    (a := .advance 2000) trivial rfl
  refine ⟨_, _, hrun, rfl, fun hall => ?_⟩
  have hleft : ((oneKey.advance seconds 1200).1.advance seconds 2000).1.entries "k"
      = some ⟨.on 1500, slotFor seconds (Wheel.start seconds 0) (.on 1500)⟩ :=
    lingers ((settled_start seconds 0).set "k" (.on 1500)) (by simp) rfl
      (by decide +kernel) (by decide +kernel) (by norm_num) (by decide +kernel)
  have htick := hall ⟨2000, _, _, _⟩
    (List.mem_append_right _ (List.mem_singleton_self _)) "k" _ 1500
    hleft rfl
  exact absurd htick (by decide +kernel)

end ThrottleKit.TimingWheel
