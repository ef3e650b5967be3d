import ThrottleKit.Stores.MemoryStore

/-!
# Two in-process stores side by side

A store drops an entry when it meets it expired, and by its wheel, so that what it holds depends on
the instants at which it was used. Two stores that were given the same updates, but were made or
looked at at different times, may have dropped different entries. Where both still have an entry it
is the same one.

As long as time does not go back this cannot be seen. When it does, an entry may be found again that
the other store has dropped, so an update of both is the same when both of them find its key, or
neither.

## Main definitions

* `Scheduled` — the wheel has the expiry of every entry
* `Shares` — what is in both stores is the same

## Main results

* `Shares.applySync` — an update of a key that both have or neither has gives the same result in
  both, and leaves them sharing
* `Shares.readOnly` — so does looking at one of them
-/

namespace ThrottleKit.MemoryStore

open TimingWheel

variable {S R : Type} {m m' : Memory S} {t : Entries S} {key : String} {now : ℚ}

/-- The wheel has the expiry of every entry. -/
def Scheduled (m : Memory S) : Prop :=
  ∀ key, (m.wheel.entries key).map WheelEntry.exp = (m.map key).map Entry.exp

/-- A store is what its own map specifies, at any time. -/
theorem Scheduled.agree (h : Scheduled m) (now : ℚ) : Agree now m m.map := ⟨h, fun _ => .inl rfl⟩

theorem scheduled_start (o : Options) (now : ℚ) : Scheduled (Memory.start o now : Memory S) :=
  fun _ => rfl

/-- An entry that both stores have is the same in both. -/
structure Shares (m m' : Memory S) : Prop where
  scheduled : Scheduled m
  scheduled' : Scheduled m'
  entries : ∀ key e e', m.map key = some e → m'.map key = some e' → e = e'

theorem shares_start (h : Scheduled m) (o : Options) (now : ℚ) :
    Shares m (Memory.start o now : Memory S) where
  scheduled := h
  scheduled' := scheduled_start o now
  entries _ _ _ _ h' := by cases h'

/-- Only the entries of a store matter, and when its wheel has them expire. -/
theorem Shares.congr_right {m'' : Memory S} (h : Shares m m') (hmap : m''.map = m'.map)
    (hentries : m''.wheel.entries = m'.wheel.entries) : Shares m m'' where
  scheduled := h.scheduled
  scheduled' key := by rw [hmap, hentries]; exact h.scheduled' key
  entries key e e' he he' := h.entries key e e' he (by rwa [hmap] at he')

theorem Agree.congr (h : Agree now m t) (hmap : m'.map = m.map)
    (hentries : m'.wheel.entries = m.wheel.entries) : Agree now m' t where
  wheel key := by rw [hmap, hentries]; exact h.wheel key
  map key := by rw [hmap]; exact h.map key

/-- Stores that agree with one specification share. -/
theorem Agree.shares (h : Agree now m t) (h' : Agree now m' t) : Shares m m' where
  scheduled := h.wheel
  scheduled' := h'.wheel
  entries _ _ _ he he' := Option.some.inj ((h.of_some he).symm.trans (h'.of_some he'))

/-- What an update of either store is given, where both have its key or neither has. -/
theorem Shares.pending_eq (h : Shares m m') (hhas : has m.map key now = has m'.map key now) :
    pending m.map key now = pending m'.map key now := by
  rw [has, has] at hhas
  rw [pending, pending]
  cases he : m.map key with
  | none =>
    cases he' : m'.map key with
    | none => rfl
    | some e' =>
      rw [he, he'] at hhas
      have hpassed : e'.exp.passed now = true := by simpa using hhas.symm
      simp [hpassed]
  | some e =>
    cases he' : m'.map key with
    | none =>
      rw [he, he'] at hhas
      have hpassed : e.exp.passed now = true := by simpa using hhas
      simp [hpassed]
    | some e' => rw [h.entries key e e' he he']

/-- **An update gives the same result in both stores**, where both have its key or neither has, and
leaves them sharing. -/
theorem Shares.applySync (o o' : Options) (h : Shares m m')
    (hhas : has m.map key now = has m'.map key now) (transform : Option S → Outcome S R) :
    (applySync o m key transform now).2 = (MemoryStore.applySync o' m' key transform now).2 ∧
      Shares (MemoryStore.applySync o m key transform now).1
        (MemoryStore.applySync o' m' key transform now).1 := by
  obtain ⟨hresult, hagree⟩ := (h.scheduled.agree now).applySync o key transform
  obtain ⟨hresult', hagree'⟩ := (h.scheduled'.agree now).applySync o' key transform
  rw [← h.pending_eq hhas] at hresult' hagree'
  refine ⟨hresult.trans hresult'.symm, hagree.wheel, hagree'.wheel, fun k e e' he he' => ?_⟩
  have hentry := hagree.of_some he
  have hentry' := hagree'.of_some he'
  split at hentry
  · rename_i hpersist
    rw [if_pos hpersist] at hentry'
    by_cases hk : k = key
    · subst hk
      rw [Function.update_self] at hentry hentry'
      exact Option.some.inj (hentry.symm.trans hentry')
    · rw [Function.update_of_ne hk] at hentry hentry'
      exact h.entries k e e' hentry hentry'
  · rename_i hpersist
    rw [if_neg hpersist] at hentry'
    exact h.entries k e e' hentry hentry'

/-- Looking at the first of the stores drops entries from it, and leaves them sharing. -/
theorem Shares.readOnly (h : Shares m m') (o : Options) (key : String)
    {transform : Option S → Outcome S R} (hpersist : ∀ state, (transform state).persist = false) :
    Shares (MemoryStore.applySync o m key transform now).1 m' := by
  have hagree := ((h.scheduled.agree now).applySync o key transform).2
  rw [if_neg (by rw [hpersist]; exact Bool.false_ne_true)] at hagree
  exact ⟨hagree.wheel, h.scheduled', fun k e e' he he' => h.entries k e e' (hagree.of_some he) he'⟩

end ThrottleKit.MemoryStore
