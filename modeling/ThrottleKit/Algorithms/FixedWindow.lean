import ThrottleKit.Core.Store
import ThrottleKit.Core.Strategy
import ThrottleKit.Lib.Rounding

/-!
# The fixed window counter

`check` counts the units of the window that holds `now` and admits while the count stays within the
limit. Over a store, the counter keeps each window of each key within the limit as long as the
checks are applied in window order: a check of an earlier window than the stored one finds another
window's state, and starts its count afresh.

## Main definitions

* `FixedWindow.check` — one check
* `FixedWindow.InOrder` — the store has seen no window past that of the check
* `FixedWindow.WithinLimit` — each window of each key was charged at most the limit

## Main results

* `applyCheck_cases` — what an applied check does
* `WithinLimit.apply` — a check in window order keeps every window within the limit
* `FixedWindow.ttlTransparent` — the count of a window that has been left decides nothing
* `FixedWindow.denialsLast` — a denial holds for its `retryAfterMs`
* `dueIsNone_of_wholeAt`, `denialsLast_of_wholeAt` — and so it is in doubles, for whole windows
-/

namespace ThrottleKit.FixedWindow

open AlignedWindow Rounding

/-- The options of `fixedWindow`, validated. -/
structure Config where
  limit : ℚ
  windowMs : ℚ
  limit_pos : 0 < limit
  windowMs_pos : 0 < windowMs

/-- The counter of one key. -/
structure State where
  /-- Start of the window the count belongs to. -/
  start : ℚ
  /-- Units consumed in it. -/
  count : ℚ

/-- The count of the window starting at `windowStart`. -/
def countIn (state : Option State) (windowStart : ℚ) : ℚ :=
  match state with
  | some st => if st.start = windowStart then st.count else 0
  | none => 0

/-- `check(state, now, cost)`. -/
def check [Rounding] (cfg : Config) (state : Option State) (now cost : ℚ) :
    ApplyOutcome State Decision :=
  let windowStart := startOf cfg.windowMs now
  let resetAt := fl (windowStart + cfg.windowMs)
  let count := countIn state windowStart
  if fl (count + cost) ≤ cfg.limit then
    let newCount := fl (count + cost)
    { state := some ⟨windowStart, newCount⟩
      result := ⟨true, cfg.limit, max 0 ⌊fl (cfg.limit - newCount)⌋, ⌈resetAt⌉, 0⟩
      ttlMs := max 1 (fl (resetAt - now))
      persist := true }
  else
    { state := state
      result := ⟨false, cfg.limit, max 0 ⌊fl (cfg.limit - count)⌋, ⌈resetAt⌉, ⌈fl (resetAt - now)⌉⟩
      ttlMs := cfg.windowMs
      persist := false }

/-- On exact rationals nothing is rounded. -/
theorem check_eq (cfg : Config) (state : Option State) (now cost : ℚ) :
    check cfg state now cost =
      if countIn state (alignedStart cfg.windowMs now) + cost ≤ cfg.limit then
        { state := some ⟨alignedStart cfg.windowMs now,
            countIn state (alignedStart cfg.windowMs now) + cost⟩
          result := ⟨true, cfg.limit,
            max 0 ⌊cfg.limit - (countIn state (alignedStart cfg.windowMs now) + cost)⌋,
            ⌈alignedStart cfg.windowMs now + cfg.windowMs⌉, 0⟩
          ttlMs := max 1 (alignedStart cfg.windowMs now + cfg.windowMs - now)
          persist := true }
      else
        { state := state
          result := ⟨false, cfg.limit,
            max 0 ⌊cfg.limit - countIn state (alignedStart cfg.windowMs now)⌋,
            ⌈alignedStart cfg.windowMs now + cfg.windowMs⌉,
            ⌈alignedStart cfg.windowMs now + cfg.windowMs - now⌉⟩
          ttlMs := cfg.windowMs
          persist := false } :=
  rfl

/-- Whichever way it decides, a check names the rounded end of the window it was made in. -/
theorem check_resetAt [Rounding] (cfg : Config) (state : Option State) (now cost : ℚ) :
    (check cfg state now cost).result.resetAt = ceilEnd cfg.windowMs now := by
  unfold check
  dsimp only
  split <;> rfl

/-- An applied check of a store. -/
def applyCheck [Rounding] (cfg : Config) (s : Store State) (key : String) (now cost : ℚ) :
    Store State × Decision :=
  s.apply key fun state => check cfg state now cost

theorem applyCheck_snd [Rounding] (cfg : Config) (s : Store State) (key : String) (now cost : ℚ) :
    (applyCheck cfg s key now cost).2 = (check cfg (s.read key) now cost).result := by
  unfold applyCheck Store.apply
  dsimp only
  split <;> rfl

theorem applyCheck_resetAt [Rounding] {cfg : Config} {s s' : Store State} {key : String}
    {now cost : ℚ} {d : Decision} (h : applyCheck cfg s key now cost = (s', d)) :
    d.resetAt = ceilEnd cfg.windowMs now := by
  rw [← check_resetAt cfg (s.read key) now cost, ← applyCheck_snd, h]

/-- What an applied check does: it admits within the limit and counts the cost, or changes
nothing. -/
theorem applyCheck_cases [Rounding] {cfg : Config} {s s' : Store State} {key : String}
    {now cost : ℚ} {d : Decision} (h : applyCheck cfg s key now cost = (s', d)) :
    (d.allowed = true ∧
      fl (countIn (s.read key) (startOf cfg.windowMs now) + cost) ≤ cfg.limit ∧
      s'.slots = Function.update s.slots key
        (some ⟨⟨startOf cfg.windowMs now,
          fl (countIn (s.read key) (startOf cfg.windowMs now) + cost)⟩, true⟩)) ∨
    (d.allowed = false ∧ s' = s) := by
  unfold applyCheck Store.apply check at h
  dsimp only at h
  split at h
  · rename_i hfits
    obtain ⟨rfl, rfl⟩ := Prod.mk.inj h
    exact .inl ⟨rfl, hfits, rfl⟩
  · obtain ⟨rfl, rfl⟩ := Prod.mk.inj h
    exact .inr ⟨rfl, rfl⟩

/-- The window of `now` is past the one stored for `key`, or is the one stored and still live. -/
def InOrder [Rounding] (cfg : Config) (s : Store State) (key : String) (now : ℚ) : Bool :=
  match s.slots key with
  | some slot =>
    slot.state.start < startOf cfg.windowMs now ||
      (slot.state.start = startOf cfg.windowMs now && slot.live)
  | none => true

/-- With `charged key w` the units charged to the window of `key` starting at `w`: the store counts
those of its own window, none were charged to a later one, and no window was overcharged. -/
structure WithinLimit (cfg : Config) (s : Store State) (charged : String → ℚ → ℚ) : Prop where
  current : ∀ key slot, s.slots key = some slot → charged key slot.state.start = slot.state.count
  later : ∀ key w, (∀ slot, s.slots key = some slot → slot.state.start < w) → charged key w = 0
  le_limit : ∀ key w, charged key w ≤ cfg.limit

/-- What a check that was decided by `d` charges. -/
def chargeOf [Rounding] (cfg : Config) (key : String) (now cost : ℚ) (d : Decision)
    (key' : String) (w : ℚ) : ℚ :=
  if d.allowed ∧ key' = key ∧ w = startOf cfg.windowMs now then cost else 0

section WithinLimit

variable {cfg : Config} {s s' : Store State} {charged : String → ℚ → ℚ} {key : String}

theorem WithinLimit.empty (cfg : Config) : WithinLimit cfg .empty fun _ _ => 0 where
  current := by rintro key slot ⟨⟩
  later _ _ _ := rfl
  le_limit _ _ := cfg.limit_pos.le

/-- In window order, the count a check sees is what its window was charged. -/
theorem WithinLimit.countIn_read [Rounding] (h : WithinLimit cfg s charged) {now : ℚ}
    (horder : InOrder cfg s key now = true) :
    countIn (s.read key) (startOf cfg.windowMs now)
      = charged key (startOf cfg.windowMs now) := by
  unfold InOrder at horder
  cases hslot : s.slots key with
  | none =>
    have hread : s.read key = none := by simp [Store.read, hslot]
    rw [hread, h.later key _ (by simp [hslot])]
    rfl
  | some slot =>
    have hcur := h.current key slot hslot
    obtain ⟨⟨start, count⟩, live⟩ := slot
    simp only [hslot, Bool.or_eq_true, Bool.and_eq_true, decide_eq_true_eq] at horder
    rcases horder with hlt | ⟨heq, hlive⟩
    · have hzero : charged key (startOf cfg.windowMs now) = 0 := by
        refine h.later key _ fun slot' hslot' => ?_
        rw [hslot] at hslot'
        rw [← Option.some.inj hslot']
        exact hlt
      rw [hzero]
      cases live <;> simp [Store.read, hslot, countIn, hlt.ne]
    · subst heq hlive
      simp only [Store.read, hslot, Option.bind_some, if_true, countIn]
      exact hcur.symm

/-- **A check in window order keeps every window within the limit**, if its count is not rounded. -/
theorem WithinLimit.apply [Rounding] (h : WithinLimit cfg s charged) {now cost : ℚ} {d : Decision}
    (horder : InOrder cfg s key now = true)
    (hcount : Unrounded (countIn (s.read key) (startOf cfg.windowMs now) + cost))
    (happly : applyCheck cfg s key now cost = (s', d)) :
    WithinLimit cfg s' fun key' w => charged key' w + chargeOf cfg key now cost d key' w := by
  rcases applyCheck_cases happly with ⟨hd, hfits, hslots⟩ | ⟨hd, rfl⟩
  · rw [(hcount : fl _ = _), h.countIn_read horder] at hfits hslots
    have hslot : ∀ key', s'.slots key' = if key' = key then
        some ⟨⟨startOf cfg.windowMs now,
          charged key (startOf cfg.windowMs now) + cost⟩, true⟩ else s.slots key' := by
      intro key'
      rw [hslots, Function.update_apply]
    constructor
    · intro key' slot hget
      rw [hslot] at hget
      split at hget
      · rename_i hkey
        obtain rfl := Option.some.inj hget
        simp [chargeOf, hkey, hd]
      · rename_i hkey
        simp [chargeOf, hkey, h.current key' slot hget]
    · intro key' w hw
      by_cases hkey : key' = key
      · subst hkey
        have hlt : startOf cfg.windowMs now < w := hw _ (by rw [hslot, if_pos rfl])
        have hzero : charged key' w = 0 := by
          refine h.later key' w fun slot hget => lt_of_le_of_lt ?_ hlt
          simp only [InOrder, hget, Bool.or_eq_true, Bool.and_eq_true, decide_eq_true_eq] at horder
          rcases horder with hlt' | ⟨heq, -⟩
          · exact hlt'.le
          · exact heq.le
        simp [chargeOf, hzero, hlt.ne']
      · rw [hslot, if_neg hkey] at hw
        simp [chargeOf, hkey, h.later key' w hw]
    · intro key' w
      by_cases hkw : key' = key ∧ w = startOf cfg.windowMs now
      · obtain ⟨rfl, rfl⟩ := hkw
        simpa [chargeOf, hd] using hfits
      · simpa [chargeOf, hkw] using h.le_limit key' w
  · simpa [chargeOf, hd] using h

/-- Expiry charges nothing and moves no window. -/
theorem WithinLimit.expire (h : WithinLimit cfg s charged) (key : String) :
    WithinLimit cfg (s.expire key) charged := by
  have hstart : ∀ key' slot, (s.expire key).slots key' = some slot →
      ∃ slot₀, s.slots key' = some slot₀ ∧ slot₀.state = slot.state := by
    intro key' slot hslot
    simp only [Store.expire, Function.update_apply] at hslot
    split at hslot
    · rename_i hkey
      obtain ⟨slot₀, hslot₀, rfl⟩ := Option.map_eq_some_iff.mp hslot
      exact ⟨slot₀, hkey ▸ hslot₀, rfl⟩
    · exact ⟨slot, hslot, rfl⟩
  have hback : ∀ key' slot, s.slots key' = some slot →
      ∃ slot', (s.expire key).slots key' = some slot' ∧ slot'.state = slot.state := by
    intro key' slot hslot
    simp only [Store.expire, Function.update_apply]
    split
    · rename_i hkey
      subst hkey
      exact ⟨{ slot with live := false }, by rw [hslot]; rfl, rfl⟩
    · exact ⟨slot, hslot, rfl⟩
  refine ⟨?_, ?_, h.le_limit⟩
  · intro key' slot hslot
    obtain ⟨slot₀, hslot₀, hstate⟩ := hstart key' slot hslot
    rw [← hstate]
    exact h.current key' slot₀ hslot₀
  · intro key' w hw
    refine h.later key' w fun slot hslot => ?_
    obtain ⟨slot', hslot', hstate⟩ := hback key' slot hslot
    rw [← hstate]
    exact hw slot' hslot'

end WithinLimit

/-! ### Expired counts -/

/-- `fixedWindow(options)`. -/
def fixedWindow [Rounding] (cfg : Config) : Strategy State where
  name := "fixedWindow"
  limit := cfg.limit
  ttlMs := cfg.windowMs
  check := check cfg

/-- `peek(state, now)`. -/
def peek [Rounding] (cfg : Config) (state : Option State) (now : ℚ) : Decision :=
  let windowStart := startOf cfg.windowMs now
  let resetAt := fl (windowStart + cfg.windowMs)
  let count := countIn state windowStart
  let allowed := decide (fl (count + 1) ≤ cfg.limit)
  ⟨allowed, cfg.limit, max 0 ⌊fl (cfg.limit - count)⌋, ⌈resetAt⌉,
    if allowed then 0 else ⌈fl (resetAt - now)⌉⟩

/-- `forecast(state, now, cost)`. -/
def forecast [Rounding] (cfg : Config) (state : Option State) (now cost : ℚ) : Forecast :=
  let windowStart := startOf cfg.windowMs now
  let resetAt := ⌈fl (windowStart + cfg.windowMs)⌉
  let available := max 0 (fl (cfg.limit - countIn state windowStart))
  ⟨⌊fl (available / cost)⌋, resetAt, resetAt⟩

/-- `fixedWindow(options)` with its introspection. -/
def introspectable [Rounding] (cfg : Config) : Introspectable State :=
  { fixedWindow cfg with peek := peek cfg, forecast := forecast cfg }

/-- The count of another window acts as none. -/
theorem seen_of_start_ne [Rounding] {cfg : Config} {s : State} {now : ℚ}
    (h : s.start ≠ startOf cfg.windowMs now) (cost : ℚ) :
    (check cfg (some s) now cost).seen = (check cfg none now cost).seen := by
  have hcount : countIn (some s) (startOf cfg.windowMs now)
      = countIn none (startOf cfg.windowMs now) := if_neg h
  unfold check
  dsimp only
  rw [hcount]
  split <;> rfl

/-- A later window has begun. -/
def Left [Rounding] (cfg : Config) (s : State) (now : ℚ) : Prop :=
  s.start < startOf cfg.windowMs now

instance [Rounding] (cfg : Config) (s : State) (now : ℚ) : Decidable (Left cfg s now) :=
  inferInstanceAs (Decidable (_ < _))

/-- **The count of a window that has been left decides nothing.** -/
theorem ttlTransparent [Rounding] (cfg : Config) :
    TtlTransparent (LastsTo (Left cfg) (check cfg)) (check cfg) :=
  ttlTransparent_of_spent (fun hle h => lt_of_lt_of_le h (startOf_mono cfg.windowMs_pos hle))
    fun h => seen_of_start_ne (ne_of_lt h)

/-- On exact rationals a window has been left at the end of the TTL. -/
theorem left_of_ttl {cfg : Config} {state : Option State} {now cost t : ℚ} {s : State}
    (hpersist : (check cfg state now cost).persist = true)
    (hstate : (check cfg state now cost).state = some s)
    (hdue : now + (check cfg state now cost).ttlMs ≤ t) : Left cfg s t := by
  rw [check_eq] at hpersist hstate hdue
  split at hpersist
  · rename_i hfits
    rw [if_pos hfits] at hstate hdue
    obtain rfl := Option.some.inj hstate
    have hend : alignedStart cfg.windowMs now + cfg.windowMs ≤ t := by
      linarith [le_max_right 1 (alignedStart cfg.windowMs now + cfg.windowMs - now)]
    calc alignedStart cfg.windowMs now
        < alignedStart cfg.windowMs now + cfg.windowMs := lt_add_of_pos_right _ cfg.windowMs_pos
      _ ≤ alignedStart cfg.windowMs t := add_le_alignedStart cfg.windowMs_pos hend
  · cases hpersist

theorem lasts (cfg : Config) (state : Option State) (now cost : ℚ) :
    LastsTo (Left cfg) (check cfg) state now cost :=
  fun _ hstate hpersist => left_of_ttl hpersist hstate le_rfl

theorem dueIsNone (cfg : Config) : DueIsNone (fun _ => True) (check cfg) :=
  fun _ _ _ _ _ hpersist hstate _ _ hdue =>
    seen_of_start_ne (ne_of_lt (left_of_ttl hpersist hstate hdue))

/-- A check is denied when it does not fit in its window. -/
theorem denied_iff [Rounding] {cfg : Config} {state : Option State} {now cost : ℚ} :
    (check cfg state now cost).result.allowed = false ↔
      cfg.limit < fl (countIn state (startOf cfg.windowMs now) + cost) := by
  unfold check
  dsimp only
  split <;> simp_all

/-- A denied check keeps nothing. -/
theorem keeps [Rounding] (cfg : Config) (state : Option State) (now cost : ℚ)
    (h : (check cfg state now cost).result.allowed = false) :
    (check cfg state now cost).persist = false := by
  rw [denied_iff] at h
  rw [check, if_neg (not_le.mpr h)]

/-- **A denial lasts for its `retryAfterMs`**, at whole milliseconds. -/
theorem denialsLast (cfg : Config) : DenialsLast WholeMs (check cfg) where
  keeps := keeps cfg
  denies state t t' c c' ht ht' hle hcost h hretry := by
    rw [denied_iff, startOf_exact, fl_exact] at h ⊢
    rw [check_eq, if_neg (not_le.mpr h)] at hretry
    have hlt := lt_add_of_wholeMs ht ht' hretry
    rw [alignedStart_eq_of_lt cfg.windowMs_pos hle (by linarith)]
    linarith

/-! ### Windows of whole numbers -/

/-- At the end of the TTL, a window of whole numbers has been left. -/
theorem dueIsNone_of_wholeAt [Rounding] (cfg : Config) :
    DueIsNone (WholeAt cfg.windowMs) (check cfg) := by
  intro t state cost s ht hpersist hstate t' ht' hdue
  have hw := cfg.windowMs_pos
  unfold check at hpersist hstate hdue
  dsimp only at hpersist hstate hdue
  split at hpersist
  · rename_i hfits
    rw [if_pos hfits] at hstate hdue
    obtain rfl := Option.some.inj hstate
    have hleft : fl (endOf cfg.windowMs t - t) = endOf cfg.windowMs t - t := ht.fl_endOf_sub hw
    have hone : 1 ≤ endOf cfg.windowMs t - t := by
      have hnext := ht.instant.add_one_le (ht.isWhole_endOf hw) (ht.inside hw)
      linarith
    have hend : endOf cfg.windowMs t ≤ t' := by
      calc endOf cfg.windowMs t
          = fl (t + max 1 (fl (endOf cfg.windowMs t - t))) := by
            rw [hleft, max_eq_right hone, add_sub_cancel, endOf, fl_fl]
        _ ≤ t' := hdue
    exact seen_of_start_ne (startOf_lt_of_ended hw (ht.inside hw) (ht'.inside hw) hend).ne
  · cases hpersist

/-- **A denial lasts for its `retryAfterMs`**, in windows of whole numbers. -/
theorem denialsLast_of_wholeAt [Rounding] (cfg : Config) :
    DenialsLast (WholeAt cfg.windowMs) (check cfg) where
  keeps := keeps cfg
  denies state t t' c c' ht ht' hle hcost h hretry := by
    have hw := cfg.windowMs_pos
    rw [denied_iff] at h ⊢
    have hretryAfter : (check cfg state t c).result.retryAfterMs = endOf cfg.windowMs t - t := by
      obtain ⟨n, hn⟩ := ((ht.isWhole_endOf hw).sub ht.instant).exists_eq
      have hleft : fl (endOf cfg.windowMs t - t) = endOf cfg.windowMs t - t := ht.fl_endOf_sub hw
      rw [check, if_neg (not_le.mpr h)]
      show (⌈fl (endOf cfg.windowMs t - t)⌉ : ℚ) = _
      rw [hleft, hn, Int.ceil_intCast]
    rw [hretryAfter, add_sub_cancel, endOf, fl_fl] at hretry
    have hsame := (WholeAt.follows hw ht ht' hle).startOf_eq hretry
    rw [hsame]
    exact h.trans_le (Rounding.mono (add_le_add_right hcost _))

end ThrottleKit.FixedWindow
