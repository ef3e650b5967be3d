import ThrottleKit.Core.Limiter
import ThrottleKit.Lib.Lockstep
import ThrottleKit.Stores.TimingWheel

/-!
# The in-process store

A map of entries, each with its expiry, next to a timing wheel on which the same keys are scheduled.
An entry is dropped in two ways: by the wheel, when an update or a sweep advances it, and by an
update of its key that finds it expired. The store is unbounded, so that no entry is evicted.

The specification has no wheel and drops nothing: an entry is there until its expiry. The store
gives the same answers, because the wheel keeps for every key the expiry that the map has, and
drops a key by that alone; so whatever was dropped had expired, and stays expired while time does
not go back. Neither the tick, nor the number of slots, nor the time between two calls plays a part.

## Main definitions

* `applySync`, `has`, `resetSync`, `advance` — the operations of the store
* `ttlMap` — the specification
* `Agree` — the store has what the specification has, but for entries that have expired

## Main results

* `Agree.step` — every operation gives the same answer, and keeps the agreement
* `memoryStore_eq_ttlMap` — so do all of them, in the order of their times
* `ttlMap_apply` — the store the limiters are modelled over is the specification
-/

namespace ThrottleKit.MemoryStore

open TimingWheel

/-- A TTL in milliseconds, or `Infinity`. -/
inductive Ttl
  | ms (x : ℚ)
  | forever

/-- `now + Math.max(0, ttlMs)`. -/
def Ttl.deadline (ttl : Ttl) (now : ℚ) : Deadline :=
  match ttl with
  | .ms x => .on (now + max 0 x)
  | .forever => .never

/-- What a transform computes. -/
structure Outcome (S R : Type) where
  state : Option S
  result : R
  ttlMs : Ttl
  /-- Whether the state must be written. -/
  persist : Bool

/-- An entry of the map. -/
structure Entry (S : Type) where
  state : Option S
  exp : Deadline

/-- The entries by key. -/
abbrev Entries (S : Type) := String → Option (Entry S)

/-- The store. -/
structure Memory (S : Type) where
  map : Entries S
  wheel : Wheel

variable {S R : Type}

/-- A new store at `now`. -/
def Memory.start (o : Options) (now : ℚ) : Memory S := ⟨fun _ => none, .start o now⟩

/-- Remove a key from the map. It does not touch the wheel. -/
def drop (map : Entries S) (key : String) : Entries S := Function.update map key none

/-- Advance the wheel, dropping the keys that expired. -/
def advance (o : Options) (m : Memory S) (now : ℚ) : Memory S :=
  let r := m.wheel.advance o now
  ⟨r.2.foldl drop m.map, r.1⟩

/-- Lazy expiry of a key. -/
def expire (m : Memory S) (key : String) (now : ℚ) : Memory S :=
  match m.map key with
  | some e => if e.exp.passed now then ⟨drop m.map key, m.wheel.delete key⟩ else m
  | none => m

/-- `applySync(key, transform, now)`. -/
def applySync (o : Options) (m : Memory S) (key : String) (transform : Option S → Outcome S R)
    (now : ℚ) : Memory S × R :=
  let m := expire (advance o m now) key now
  let out := transform ((m.map key).bind Entry.state)
  if out.persist then
    let exp := out.ttlMs.deadline now
    (⟨Function.update m.map key (some ⟨out.state, exp⟩), m.wheel.set o key exp⟩, out.result)
  else (m, out.result)

/-- Whether `key` is present and unexpired. -/
def has (map : Entries S) (key : String) (now : ℚ) : Bool :=
  match map key with
  | some e => !e.exp.passed now
  | none => false

/-- `resetSync(key)`. -/
def resetSync (m : Memory S) (key : String) : Memory S := ⟨drop m.map key, m.wheel.delete key⟩

/-! ### Operations and their answers -/

/-- An operation on the store. An update that keeps nothing is a peek. -/
inductive Op (S R : Type)
  | apply (key : String) (transform : Option S → Outcome S R) (now : ℚ)
  | has (key : String) (now : ℚ)
  | reset (key : String) (now : ℚ)
  | sweep (now : ℚ)

/-- When it happens. -/
def Op.now : Op S R → ℚ
  | .apply _ _ now | .has _ now | .reset _ now | .sweep now => now

/-- What an operation says. -/
inductive Reply (R : Type)
  | result (r : R)
  | present (b : Bool)
  | done

/-- The store, at its operations. -/
def memoryStore (o : Options) : Lockstep.Service (Memory S) (Op S R) (Reply R) := fun m op =>
  match op with
  | .apply key transform now =>
    let r := applySync o m key transform now
    (r.1, .result r.2)
  | .has key now => (m, .present (has m.map key now))
  | .reset key _ => (resetSync m key, .done)
  | .sweep now => (advance o m now, .done)

/-- The state a transform at `now` finds in a map whose entries are there until they expire. -/
def pending (t : Entries S) (key : String) (now : ℚ) : Option S :=
  (t key).bind fun e => if e.exp.passed now then none else e.state

/-- The specification: a map with an expiry for each entry, and nothing else. -/
def ttlMap : Lockstep.Service (Entries S) (Op S R) (Reply R) := fun t op =>
  match op with
  | .apply key transform now =>
    let out := transform (pending t key now)
    (if out.persist then Function.update t key (some ⟨out.state, out.ttlMs.deadline now⟩) else t,
      .result out.result)
  | .has key now => (t, .present (has t key now))
  | .reset key _ => (Function.update t key none, .done)
  | .sweep _ => (t, .done)

/-! ### The agreement -/

/-- At `now`, the wheel has the expiry of every entry, and the map has every entry of the
specification that has not expired. -/
structure Agree (now : ℚ) (m : Memory S) (t : Entries S) : Prop where
  wheel : ∀ key, (m.wheel.entries key).map WheelEntry.exp = (m.map key).map Entry.exp
  map : ∀ key, m.map key = t key ∨
    m.map key = none ∧ ∃ e, t key = some e ∧ e.exp.passed now = true

variable {o : Options} {m : Memory S} {t : Entries S} {now now' : ℚ} {key : String}

theorem agree_start (o : Options) (created now : ℚ) :
    Agree now (Memory.start o created : Memory S) fun _ => none where
  wheel _ := rfl
  map _ := .inl rfl

theorem Agree.mono (hle : now ≤ now') (h : Agree now m t) : Agree now' m t where
  wheel := h.wheel
  map key := by
    rcases h.map key with heq | ⟨hnone, e, he, hpassed⟩
    · exact .inl heq
    · exact .inr ⟨hnone, e, he, Deadline.passed_mono hle hpassed⟩

theorem foldl_drop (keys : List String) (map : Entries S) (key : String) :
    keys.foldl drop map key = if key ∈ keys then none else map key := by
  induction keys generalizing map with
  | nil => simp
  | cons k keys ih =>
    rw [List.foldl_cons, ih]
    by_cases hk : key = k
    · subst hk
      simp [drop]
    · simp [drop, hk]

/-- An entry of the map is the specification's. -/
theorem Agree.of_some (h : Agree now m t) {e : Entry S} (he : m.map key = some e) :
    t key = some e := by
  rcases h.map key with heq | ⟨hnone, -⟩
  · rw [← heq, he]
  · rw [he] at hnone
    cases hnone

/-- **Advancing the wheel keeps the agreement.** -/
theorem Agree.advance (o : Options) (h : Agree now m t) : Agree now (advance o m now) t := by
  have hswept := advance_swept o m.wheel now
  constructor
  · intro key
    show ((m.wheel.advance o now).1.entries key).map _
      = ((m.wheel.advance o now).2.foldl drop m.map key).map _
    rw [hswept.entries key, foldl_drop]
    split
    · rfl
    · exact h.wheel key
  · intro key
    show (m.wheel.advance o now).2.foldl drop m.map key = _ ∨
      (m.wheel.advance o now).2.foldl drop m.map key = _ ∧ _
    rw [foldl_drop]
    split
    · rename_i hmem
      obtain ⟨w, hw, hpassed⟩ := hswept.passed key hmem
      have hexp := h.wheel key
      rw [hw] at hexp
      obtain ⟨e, he, hee⟩ := Option.map_eq_some_iff.mp hexp.symm
      exact .inr ⟨rfl, e, h.of_some he, by rw [hee]; exact hpassed⟩
    · exact h.map key

/-- A key that leaves the map leaves the wheel. -/
theorem Agree.wheel_delete (h : Agree now m t) (key k : String) :
    ((m.wheel.delete key).entries k).map WheelEntry.exp = (drop m.map key k).map Entry.exp := by
  rw [delete_entries, MemoryStore.drop]
  by_cases hk : k = key
  · subst hk
    simp
  · simpa [Function.update_of_ne hk] using h.wheel k

/-- Dropping a key that has expired keeps the agreement. -/
theorem Agree.drop (h : Agree now m t) {e : Entry S} (he : m.map key = some e)
    (hpassed : e.exp.passed now = true) :
    Agree now ⟨drop m.map key, m.wheel.delete key⟩ t := by
  refine ⟨h.wheel_delete key, fun k => ?_⟩
  show Function.update m.map key none k = _ ∨ Function.update m.map key none k = _ ∧ _
  by_cases hk : k = key
  · subst hk
    exact .inr ⟨Function.update_self _ _ _, e, h.of_some he, hpassed⟩
  · rw [Function.update_of_ne hk]
    exact h.map k

theorem Agree.expire (h : Agree now m t) (key : String) : Agree now (expire m key now) t := by
  unfold MemoryStore.expire
  split
  · rename_i e he
    split
    · rename_i hpassed
      exact h.drop he hpassed
    · exact h
  · exact h

theorem not_passed_of_expire {e : Entry S} (he : (expire m key now).map key = some e) :
    e.exp.passed now = false := by
  unfold expire at he
  split at he
  · rename_i e' he'
    split at he
    · have hnone : Function.update m.map key none key = some e := he
      rw [Function.update_self] at hnone
      cases hnone
    · rename_i hpassed
      obtain rfl := Option.some.inj (he'.symm.trans he)
      exact Bool.eq_false_of_not_eq_true hpassed
  · rename_i hnone
    rw [hnone] at he
    cases he

/-- After the lazy expiry of a key, its entry is what the specification finds. -/
theorem Agree.pending_eq (h : Agree now m t) (key : String) :
    ((MemoryStore.expire m key now).map key).bind Entry.state = pending t key now := by
  have hagree := h.expire key
  unfold pending
  rcases hagree.map key with heq | ⟨hnone, e, he, hpassed⟩
  · cases hmap : (MemoryStore.expire m key now).map key with
    | none => rw [← heq, hmap]; rfl
    | some e =>
      rw [← heq, hmap, Option.bind_some, Option.bind_some, not_passed_of_expire hmap]
      rfl
  · rw [hnone, he, Option.bind_some, hpassed]
    rfl

/-- Writing an entry keeps the agreement. -/
theorem Agree.write (o : Options) (h : Agree now m t) (key : String) (e : Entry S) :
    Agree now ⟨Function.update m.map key (some e), m.wheel.set o key e.exp⟩
      (Function.update t key (some e)) := by
  constructor
  · intro k
    by_cases hk : k = key
    · subst hk
      simp
    · simpa [Function.update_of_ne hk] using h.wheel k
  · intro k
    by_cases hk : k = key
    · subst hk
      exact .inl (by simp)
    · simpa [Function.update_of_ne hk] using h.map k

/-- So does removing one. -/
theorem Agree.resetSync (h : Agree now m t) (key : String) :
    Agree now (resetSync m key) (Function.update t key none) := by
  refine ⟨h.wheel_delete key, fun k => ?_⟩
  show Function.update m.map key none k = _ ∨ Function.update m.map key none k = _ ∧ _
  by_cases hk : k = key
  · subst hk
    exact .inl (by simp)
  · simpa [Function.update_of_ne hk] using h.map k

theorem Agree.has_eq (h : Agree now m t) (key : String) : has m.map key now = has t key now := by
  rcases h.map key with heq | ⟨hnone, e, he, hpassed⟩
  · rw [has, has, heq]
  · simp [has, hnone, he, hpassed]

/-- An update gives the same result, and keeps the agreement. -/
theorem Agree.applySync (o : Options) (h : Agree now m t) (key : String)
    (transform : Option S → Outcome S R) :
    (applySync o m key transform now).2 = (transform (pending t key now)).result ∧
      Agree now (applySync o m key transform now).1
        (if (transform (pending t key now)).persist then Function.update t key
          (some ⟨(transform (pending t key now)).state,
            (transform (pending t key now)).ttlMs.deadline now⟩) else t) := by
  have hadv := h.advance o
  have hexp := hadv.expire key
  unfold MemoryStore.applySync
  dsimp only
  rw [hadv.pending_eq key]
  split
  · exact ⟨rfl, hexp.write o key _⟩
  · exact ⟨rfl, hexp⟩

/-- **Every operation gives the same answer, and keeps the agreement.** -/
theorem Agree.step (o : Options) (m : Memory S) (t : Entries S) (op : Op S R)
    (h : Agree op.now m t) :
    (memoryStore o m op).2 = (ttlMap t op).2 ∧
      Agree op.now (memoryStore o m op).1 (ttlMap t op).1 := by
  cases op with
  | apply key transform now =>
    obtain ⟨hresult, hagree⟩ := h.applySync o key transform
    exact ⟨congrArg Reply.result hresult, hagree⟩
  | has key now => exact ⟨congrArg Reply.present (h.has_eq key), h⟩
  | reset key now => exact ⟨rfl, h.resetSync key⟩
  | sweep now => exact ⟨rfl, h.advance o⟩

/-- **The store is a map with an expiry for each entry**, for operations in the order of their
times: whatever the tick, the number of slots, the creation of the store and the TTLs, it gives the
answers of the specification. -/
theorem memoryStore_eq_ttlMap (o : Options) (created : ℚ) {ops : List (Op S R)}
    (hsorted : ops.Pairwise fun op op' => op.now ≤ op'.now) :
    Lockstep.answers (memoryStore o) (.start o created) ops
      = Lockstep.answers ttlMap (fun _ => none) ops := by
  rw [← List.forall₂_eq_eq_eq]
  exact Lockstep.forall₂_answers_of_start (R := Agree) Agree.mono
    (fun m t op h _ => Agree.step o m t op h) (agree_start o created) hsorted
    (Lockstep.allMet_true _ _)

/-! ### A run -/

/-- Counts the updates of a key. -/
def counting (ttl : Ttl) : Option ℕ → Outcome ℕ ℕ := fun state =>
  ⟨some (state.getD 0 + 1), state.getD 0 + 1, ttl, true⟩

/-- Ticks of ten milliseconds, in two slots. -/
def coarse : Options := ⟨10, 2⟩

/-- A key that expires between two ticks, one that never does, and an idle time of many laps. -/
def twoKeys : List (Op ℕ ℕ) :=
  [.apply "a" (counting (.ms 15)) 0, .apply "b" (counting .forever) 0, .has "a" 14,
    .apply "a" (counting (.ms (-1))) 15, .sweep 16, .apply "a" (counting (.ms 40)) 1000,
    .reset "b" 1000, .has "b" 1001, .apply "a" (counting (.ms 40)) 1039]

theorem memoryStore_eq_ttlMap_twoKeys :
    Lockstep.answers (memoryStore coarse) (.start coarse 0) twoKeys
      = Lockstep.answers ttlMap (fun _ => none) twoKeys :=
  memoryStore_eq_ttlMap coarse 0 (by decide +kernel)

/-! ### The store of the in-process limiters -/

/-- What a strategy computes, as a transform. -/
def ofOutcome (out : ApplyOutcome S R) : Outcome S R :=
  ⟨out.state, out.result, .ms out.ttlMs, out.persist⟩

/-- The same is written in both. -/
theorem pending_write {e : ThrottleKit.Entries S}
    (h : ∀ key now, pending t key now = e.pending key now) (key : String) (out : ApplyOutcome S R)
    (now : ℚ) (k : String) (now' : ℚ) :
    pending (Function.update t key (some ⟨out.state, (Ttl.ms out.ttlMs).deadline now⟩)) k now'
      = ThrottleKit.Entries.pending (Function.update e key
        (out.state.map fun state => (state, now + max 0 out.ttlMs))) k now' := by
  rw [pending, ThrottleKit.Entries.pending]
  by_cases hk : k = key
  · subst hk
    rw [Function.update_self, Function.update_self]
    cases out.state with
    | none => simp
    | some state => simp [Ttl.deadline, Deadline.passed]
  · rw [Function.update_of_ne hk, Function.update_of_ne hk]
    exact h k now'

/-- **The store the limiters are modelled over is the specification**: both find the same states,
and an update keeps it so. -/
theorem ttlMap_apply {e : ThrottleKit.Entries S}
    (h : ∀ key now, pending t key now = e.pending key now) (key : String)
    (transform : Option S → ApplyOutcome S R) (now : ℚ) :
    (ttlMap t (.apply key (fun state => ofOutcome (transform state)) now)).2
        = .result (e.applySync key transform now).2 ∧
      ∀ k now', pending (ttlMap t (.apply key (fun state => ofOutcome (transform state)) now)).1 k
        now' = (e.applySync key transform now).1.pending k now' := by
  unfold ttlMap
  dsimp only
  rw [ThrottleKit.Entries.applySync_snd, h key now]
  refine ⟨rfl, fun k now' => ?_⟩
  cases hpersist : (transform (e.pending key now)).persist with
  | false =>
    rw [ThrottleKit.Entries.applySync_of_not_persist hpersist]
    simpa [ofOutcome, hpersist] using h k now'
  | true =>
    rw [ThrottleKit.Entries.applySync_of_persist hpersist]
    rw [if_pos (show (ofOutcome (transform (e.pending key now))).persist = true from hpersist)]
    exact pending_write h key _ now k now'

end ThrottleKit.MemoryStore
