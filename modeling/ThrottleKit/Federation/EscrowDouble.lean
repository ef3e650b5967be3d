import ThrottleKit.Federation.RedisRegionalEscrow
import ThrottleKit.Lib.Lockstep

/-!
# The regional escrow in memory and on Redis

Both escrows are asked the same, at the same times. On Redis the hash of a key lives to the end of
its window and no longer, so a release that comes later finds nothing, where the escrow in memory
still hands back what is left; and an expiry that is not a whole number of milliseconds away is an
error on Redis alone. In everything else the replies are the same.

## Main definitions

* `redisCall`, `memoryCall` — a call on either escrow, and its reply
* `InStep` — the condition on a call

## Main results

* `replies_eq_iff` — the replies are the same just where every call meets the condition
* `replies_ne_release` — a release after the end of the window
-/

namespace ThrottleKit.RedisRegionalEscrow

open Lockstep Redis RegionalEscrow

/-! ### The calls and their replies -/

/-- A call on the escrow, with whole amounts. -/
inductive Call
  | lease (key : String) (tokens : ℤ)
  | refill (key : String) (granted : ℤ) (sourceWindowStart : ℚ)
  | release (key : String) (sourceWindowStart : ℚ)

/-- A call, and the clock when it runs. -/
structure Timed where
  now : ℤ
  call : Call

/-- What a call returns or throws. -/
inductive Reply
  | amount (reply : Except CallError ℚ)
  | applied (reply : Except CallError Bool)

/-- The amount that a lease or a release hands out. -/
def Reply.paid : Reply → Option ℚ
  | .amount (.ok paid) => some paid
  | _ => none

/-- The hashes of all keys. -/
abbrev Db : Type := String → Option (Key Entry)

/-- The hash of `key` as a script leaves it. -/
def Outcome.store (out : Outcome) (db : Db) (key : String) : Db := Function.update db key out.key

/-- A call of `RedisRegionalEscrow`. -/
def redisCall (windowMs : ℚ) : Service Db Timed Reply := fun db t =>
  match t.call with
  | .lease key tokens =>
    if tokens < 0 then (db, .amount (.error (.badTokens tokens)))
    else if tokens = 0 then (db, .amount (.ok 0))
    else
      let out := leaseLua (db key) t.now tokens
      (out.store db key, .amount ((out.replied "lease" key).map fun n => (n : ℚ)))
  | .refill key granted sourceWindowStart =>
    if granted < 0 then (db, .applied (.error (.badGranted granted)))
    else if sourceWindowStart < 0 then
      (db, .applied (.error (.badSourceWindowStart "refill" sourceWindowStart)))
    else if granted = 0 then (db, .applied (.ok true))
    else
      let out := refillLua windowMs (db key) t.now granted sourceWindowStart
      (out.store db key, .applied ((out.replied "refill" key).map fun n => n = 1))
  | .release key sourceWindowStart =>
    if sourceWindowStart < 0 then
      (db, .amount (.error (.badSourceWindowStart "release" sourceWindowStart)))
    else
      let out := releaseLua (db key) t.now sourceWindowStart
      (out.store db key, .amount ((out.replied "release" key).map fun n => (n : ℚ)))

/-- Why a call of the escrow in memory throws. -/
def refusal (s : Escrow) : Call → CallError
  | .lease key tokens => if !s.healthy then .unavailable "lease" key else .badTokens tokens
  | .refill key granted sourceWindowStart =>
    if !s.healthy then .unavailable "refill" key
    else if granted < 0 then .badGranted granted
    else .badSourceWindowStart "refill" sourceWindowStart
  | .release key sourceWindowStart =>
    if !s.healthy then .unavailable "release" key
    else .badSourceWindowStart "release" sourceWindowStart

/-- A call of `TestRegionalEscrow`. -/
def memoryCall : Service Escrow Timed Reply := fun s t =>
  match t.call with
  | .lease key tokens =>
    match s.lease key tokens t.now with
    | some (s', granted) => (s', .amount (.ok granted))
    | none => (s, .amount (.error (refusal s t.call)))
  | .refill key granted sourceWindowStart =>
    match s.refill key granted sourceWindowStart t.now with
    | some (s', applied) => (s', .applied (.ok applied))
    | none => (s, .applied (.error (refusal s t.call)))
  | .release key sourceWindowStart =>
    match s.release key sourceWindowStart with
    | some (s', leftover) => (s', .amount (.ok leftover))
    | none => (s, .amount (.error (refusal s t.call)))

/-- The end of a window is a whole number of milliseconds away, or less than one. -/
def WholeExpiry (expiresAt : ℚ) (now : ℤ) : Prop := ⌈expiresAt⌉ = expiresAt ∨ ⌈expiresAt⌉ ≤ now + 1

/-- A refill that is applied can set its expiry, and a release that finds a leftover comes no later
than the end of the window. -/
def InStep (windowMs : ℚ) (s : Escrow) (t : Timed) : Prop :=
  match t.call with
  | .lease _ _ => True
  | .refill _ granted sourceWindowStart =>
    0 < granted → 0 ≤ sourceWindowStart → t.now < sourceWindowStart + windowMs →
      WholeExpiry (sourceWindowStart + windowMs) t.now
  | .release key sourceWindowStart =>
    0 ≤ sourceWindowStart → ∀ e ∈ s.entries key, e.sourceLease = sourceWindowStart →
      0 < e.balance → t.now ≤ ⌈sourceWindowStart + windowMs⌉

/-! ### Expiries -/

section Expiries

variable {expiresAt : ℚ} {now : ℤ} {k : Key Entry}

theorem WholeExpiry.mono {now' : ℤ} (h : WholeExpiry expiresAt now) (hle : now ≤ now') :
    WholeExpiry expiresAt now' :=
  h.imp_right fun h => h.trans (by omega)

theorem pexpire_of_wholeExpiry (h : WholeExpiry expiresAt now) (hlt : now < expiresAt) :
    pexpire k now (max 1 (expiresAt - now)) = some { k with diesAt := some ⌈expiresAt⌉ } := by
  have hceil : now < ⌈expiresAt⌉ := Int.lt_ceil.mpr hlt
  have hms : max 1 (expiresAt - now) = ((⌈expiresAt⌉ - now : ℤ) : ℚ) := by
    push_cast
    rcases h with hwhole | hnear
    · rw [hwhole, max_eq_right]
      have : (now : ℚ) + 1 ≤ ⌈expiresAt⌉ := by exact_mod_cast hceil
      linarith
    · obtain hone : ⌈expiresAt⌉ = now + 1 := by omega
      have hle := Int.le_ceil expiresAt
      rw [hone] at hle ⊢
      push_cast at hle ⊢
      rw [max_eq_left (by linarith)]
      ring
  rw [pexpire, hms, Int.floor_intCast, if_pos rfl, add_sub_cancel]

theorem pexpire_of_not_wholeExpiry (h : ¬ WholeExpiry expiresAt now) :
    pexpire k now (max 1 (expiresAt - now)) = none := by
  obtain ⟨hpart, hfar⟩ := not_or.mp h
  have hlt : (now : ℚ) + 1 < expiresAt := by
    have := Int.lt_ceil.mp (not_le.mp hfar)
    exact_mod_cast this
  rw [pexpire, max_eq_right (by linarith), if_neg]
  intro hwhole
  rw [Int.floor_sub_intCast, Int.cast_sub] at hwhole
  refine hpart ?_
  have hfloor : (⌊expiresAt⌋ : ℚ) = expiresAt := by linarith
  rw [← hfloor, Int.ceil_intCast]

theorem commit_of_wholeExpiry {e : Entry} (k : Option (Key Entry)) (h : WholeExpiry e.expiresAt now)
    (hlt : now < e.expiresAt) : commit k now e = (⟨e, some ⌈e.expiresAt⌉⟩, true) := by
  rw [commit, pexpire_of_wholeExpiry h hlt]
  rfl

theorem commit_of_not_wholeExpiry {e : Entry} (k : Option (Key Entry))
    (h : ¬ WholeExpiry e.expiresAt now) : (commit k now e).2 = false := by
  rw [commit, pexpire_of_not_wholeExpiry h]

/-- What is found of a hash that lives to the end of its window. -/
theorem read_hash (e : Entry) (t : ℤ) :
    read (some ⟨e, some ⌈e.expiresAt⌉⟩) t = (some e).filter fun e => t ≤ ⌈e.expiresAt⌉ := by
  rw [Redis.read, Option.bind_some, Key.live, Option.filter_some]

theorem luaInteger_natCast (n : ℕ) : luaInteger (n : ℚ) = n := by
  rw [luaInteger, if_pos (Nat.cast_nonneg n), Int.floor_natCast]

end Expiries

/-! ### One key -/

/-- The hash of a key holds the entry in memory, to the end of its window. -/
structure KeyMirrors (windowMs : ℚ) (now : ℤ) (o : Option Entry) (k : Option (Key Entry)) :
    Prop where
  whole : ∀ e ∈ o, ∃ n : ℕ, e.balance = n
  ends : ∀ e ∈ o, e.expiresAt = e.sourceLease + windowMs ∧ WholeExpiry e.expiresAt now
  found : ∀ t, now ≤ t → read k t = o.filter fun e => t ≤ ⌈e.expiresAt⌉

section OneKey

variable {windowMs : ℚ} {now : ℤ} {o : Option Entry} {k : Option (Key Entry)} {e : Entry}

theorem KeyMirrors.none {k : Option (Key Entry)} (h : ∀ t, now ≤ t → read k t = Option.none) :
    KeyMirrors windowMs now Option.none k where
  whole := by rintro e ⟨⟩
  ends := by rintro e ⟨⟩
  found := h

theorem KeyMirrors.mono {now' : ℤ} (h : KeyMirrors windowMs now o k) (hle : now ≤ now') :
    KeyMirrors windowMs now' o k where
  whole := h.whole
  ends e he := ⟨(h.ends e he).1, (h.ends e he).2.mono hle⟩
  found t ht := h.found t (hle.trans ht)

/-- The hash that `HSET` and `PEXPIRE` leave. -/
theorem KeyMirrors.committed {n : ℕ} {w : ℚ} (h : WholeExpiry (w + windowMs) now) :
    KeyMirrors windowMs now (some ⟨n, w, w + windowMs⟩)
      (some ⟨⟨n, w, w + windowMs⟩, some ⌈w + windowMs⌉⟩) where
  whole := by
    rintro e ⟨⟩
    exact ⟨n, rfl⟩
  ends := by
    rintro e ⟨⟩
    exact ⟨rfl, h⟩
  found t _ := read_hash _ t

/-- What a script finds while an entry in memory counts. -/
theorem KeyMirrors.read_eq (h : KeyMirrors windowMs now (some e) k) (hle : now ≤ ⌈e.expiresAt⌉) :
    Redis.read k now = some e := by
  rw [h.found now le_rfl, Option.filter_some, if_pos (decide_eq_true hle)]

end OneKey

/-! ### All keys -/

/-- The hashes hold what the escrow in memory does. -/
structure Mirrors (windowMs : ℚ) (now : ℤ) (s : Escrow) (db : Db) : Prop where
  healthy : s.healthy = true
  windowMs_eq : s.windowMs = windowMs
  key : ∀ key, KeyMirrors windowMs now (s.entries key) (db key)

section AllKeys

variable {windowMs : ℚ} {now : ℤ} {s : Escrow} {db : Db} {key : String}

theorem mirrors_start (windowMs : ℚ) (now : ℤ) :
    Mirrors windowMs now (Escrow.new windowMs) fun _ => none where
  healthy := rfl
  windowMs_eq := rfl
  key _ := .none fun _ _ => rfl

theorem Mirrors.mono {now' : ℤ} (h : Mirrors windowMs now s db) (hle : now ≤ now') :
    Mirrors windowMs now' s db :=
  ⟨h.healthy, h.windowMs_eq, fun key => (h.key key).mono hle⟩

/-- Both write one key. -/
theorem Mirrors.write (h : Mirrors windowMs now s db) {o : Option Entry} {k : Option (Key Entry)}
    (hkey : KeyMirrors windowMs now o k) :
    Mirrors windowMs now (s.setEntry key o) (Function.update db key k) where
  healthy := h.healthy
  windowMs_eq := h.windowMs_eq
  key key' := by
    rw [Escrow.setEntry]
    dsimp only
    by_cases heq : key' = key
    · subst heq
      rw [Function.update_self, Function.update_self]
      exact hkey
    · rw [Function.update_of_ne heq, Function.update_of_ne heq]
      exact h.key key'

/-- A script that leaves its key alone replies nothing. -/
theorem idle_store (db : Db) (key : String) : (Outcome.idle (db key)).store db key = db :=
  Function.update_eq_self key db

theorem idle_amount (call key : String) (k : Option (Key Entry)) :
    ((Outcome.idle k).replied call key).map (fun n => (n : ℚ)) = .ok 0 := by
  rw [Outcome.replied, Outcome.idle]
  exact congrArg Except.ok Int.cast_zero

/-- What the lease script takes at most. -/
theorem granted_eq_min (tokens balance : ℚ) :
    (if balance < tokens then balance else tokens) = min tokens balance := by
  split
  · rename_i hlt
    exact (min_eq_right hlt.le).symm
  · rename_i hle
    exact (min_eq_left (not_lt.mp hle)).symm

/-- A lease of a key with nothing to lease. -/
theorem Mirrors.lease_nothing (h : Mirrors windowMs now s db) (key : String) {tokens : ℚ}
    (hpos : 0 < tokens)
    (hnothing : ∀ e ∈ s.entries key, now < e.expiresAt → min tokens e.balance ≤ 0) :
    s.lease key tokens now = some (s, 0) ∧ leaseLua (db key) now tokens = .idle (db key) := by
  have hhealthy : ¬ (!s.healthy) = true := by simp [h.healthy]
  constructor
  · rw [Escrow.lease, if_neg hhealthy, if_neg hpos.le.not_gt, if_neg hpos.ne']
    split
    · rfl
    rename_i e he
    split
    · rfl
    · rename_i hexpires
      exact if_pos (hnothing e he (not_le.mp hexpires))
  · rw [leaseLua]
    split
    · rfl
    rename_i e he
    rw [(h.key key).found now le_rfl] at he
    obtain ⟨hmem, -⟩ := Option.filter_eq_some_iff.mp he
    split
    · rfl
    · rename_i hexpires
      dsimp only
      rw [granted_eq_min]
      exact if_pos (hnothing e hmem (not_le.mp hexpires))

/-- A lease of a key with something to lease. -/
theorem Mirrors.lease_some (h : Mirrors windowMs now s db) {tokens : ℚ} {e : Entry}
    (he : s.entries key = some e) (hnow : now < e.expiresAt) (hpos : 0 < min tokens e.balance) :
    s.lease key tokens now
        = some (s.setEntry key (some { e with balance := e.balance - min tokens e.balance }),
            min tokens e.balance) ∧
      leaseLua (db key) now tokens
        = ⟨some ⟨{ e with balance := e.balance - min tokens e.balance }, some ⌈e.expiresAt⌉⟩,
            min tokens e.balance, some (luaInteger (min tokens e.balance))⟩ := by
  have hhealthy : ¬ (!s.healthy) = true := by simp [h.healthy]
  obtain ⟨htokens, -⟩ := lt_min_iff.mp hpos
  have hkey := he ▸ h.key key
  constructor
  · rw [Escrow.lease, if_neg hhealthy, if_neg htokens.le.not_gt, if_neg htokens.ne', he]
    dsimp only
    rw [if_neg (not_le.mpr hnow), if_neg (not_le.mpr hpos)]
  · rw [leaseLua, hkey.read_eq (Int.lt_ceil.mpr hnow).le]
    dsimp only
    have hcommit := commit_of_wholeExpiry
      (e := { e with balance := e.balance - min tokens e.balance })
      (db key) (hkey.ends e rfl).2 hnow
    rw [if_neg (not_le.mpr hnow), granted_eq_min, if_neg (not_le.mpr hpos), hcommit]
    rfl

/-- A lease takes the same on both sides. -/
theorem Mirrors.lease (h : Mirrors windowMs now s db) (key : String) (tokens : ℤ) :
    (memoryCall s ⟨now, .lease key tokens⟩).2 = (redisCall windowMs db ⟨now, .lease key tokens⟩).2 ∧
      Mirrors windowMs now (memoryCall s ⟨now, .lease key tokens⟩).1
        (redisCall windowMs db ⟨now, .lease key tokens⟩).1 := by
  have hhealthy : ¬ (!s.healthy) = true := by simp [h.healthy]
  rw [memoryCall, redisCall]
  dsimp only
  rcases lt_trichotomy tokens 0 with hneg | hzero | hpos
  · rw [Escrow.lease, if_neg hhealthy, if_pos (by exact_mod_cast hneg), if_pos hneg, refusal,
      if_neg hhealthy]
    exact ⟨rfl, h⟩
  · rw [Escrow.lease, if_neg hhealthy, if_neg (by exact_mod_cast hzero.not_lt),
      if_pos (by exact_mod_cast hzero), if_neg hzero.not_lt, if_pos hzero]
    exact ⟨rfl, h⟩
  rw [if_neg hpos.not_gt, if_neg hpos.ne']
  by_cases hsome : ∃ e, s.entries key = some e ∧ now < e.expiresAt ∧ 0 < min (tokens : ℚ) e.balance
  · obtain ⟨e, he, hnow, hmin⟩ := hsome
    obtain ⟨hmemory, hredis⟩ := h.lease_some he hnow hmin
    have hkey := he ▸ h.key key
    obtain ⟨n, hn⟩ := hkey.whole e rfl
    obtain ⟨hends, hwhole⟩ := hkey.ends e rfl
    -- what is leased is a whole amount
    lift tokens to ℕ using hpos.le
    obtain ⟨m, hm, hle⟩ : ∃ m : ℕ, min ((tokens : ℤ) : ℚ) e.balance = m ∧ m ≤ n :=
      ⟨min tokens n, by rw [hn]; push_cast; rfl, min_le_right _ _⟩
    rw [hmemory, hredis]
    dsimp only
    rw [hm]
    refine ⟨?_, h.write ?_⟩
    · rw [Outcome.replied, luaInteger_natCast]
      exact congrArg (Reply.amount ∘ Except.ok) (Int.cast_natCast m).symm
    · have hleft : ((n - m : ℕ) : ℚ) = e.balance - m := by rw [Nat.cast_sub hle, hn]
      rw [← hleft, hends]
      exact .committed (hends ▸ hwhole)
  · have hpos' : (0 : ℚ) < tokens := by exact_mod_cast hpos
    obtain ⟨hmemory, hredis⟩ := h.lease_nothing key hpos'
      (fun e he hnow => not_lt.mp fun hmin => hsome ⟨e, he, hnow, hmin⟩)
    rw [hmemory, hredis, idle_store, idle_amount]
    exact ⟨rfl, h⟩

/-- A refill of a window that has not ended. -/
theorem Mirrors.refill_some (h : Mirrors windowMs now s db) (key : String) {granted w : ℚ}
    (hpos : 0 < granted) (hw : 0 ≤ w) (hnow : now < w + windowMs) :
    s.refill key granted w now
        = some (s.setEntry key (some ⟨held (s.entries key) w + granted, w, w + windowMs⟩), true) ∧
      ∃ k, refillLua windowMs (db key) now granted w
        = ⟨some (commit k now ⟨held (s.entries key) w + granted, w, w + windowMs⟩).1, granted,
            if (commit k now ⟨held (s.entries key) w + granted, w, w + windowMs⟩).2 then some 1
              else none⟩ := by
  have hhealthy : ¬ (!s.healthy) = true := by simp [h.healthy]
  have hkey := h.key key
  rw [Escrow.refill, if_neg hhealthy, if_neg hpos.le.not_gt, if_neg hw.not_gt, if_neg hpos.ne',
    refillLua]
  dsimp only
  rw [h.windowMs_eq, if_neg (not_le.mpr hnow), if_neg (not_le.mpr hnow)]
  cases he : s.entries key with
  | none =>
    rw [he] at hkey
    rw [hkey.found now le_rfl, held_none, zero_add]
    exact ⟨rfl, none, rfl⟩
  | some e =>
    rw [he] at hkey
    obtain ⟨hends, -⟩ := hkey.ends e rfl
    dsimp only
    rw [held_some]
    by_cases hsource : e.sourceLease = w
    · -- the balance of this window is still found
      have hlive : now ≤ ⌈e.expiresAt⌉ := by
        rw [hends, hsource]
        exact (Int.lt_ceil.mpr hnow).le
      rw [if_neg (not_not.mpr hsource), if_pos hsource, hkey.read_eq hlive, Option.filter_some,
        if_pos (decide_eq_true hsource), hsource]
      exact ⟨rfl, db key, rfl⟩
    · have hother : (Redis.read (db key) now).filter (fun e => e.sourceLease = w) = none := by
        rw [hkey.found now le_rfl, Option.filter_filter, Option.filter_some, if_neg]
        simp [hsource]
      rw [if_pos hsource, if_neg hsource, zero_add, hother]
      exact ⟨rfl, none, rfl⟩

/-- A refill is replied to alike where Redis can set the expiry. -/
theorem Mirrors.refill (h : Mirrors windowMs now s db) (key : String) (granted : ℤ) (w : ℚ) :
    ((memoryCall s ⟨now, .refill key granted w⟩).2
        = (redisCall windowMs db ⟨now, .refill key granted w⟩).2 ↔
      InStep windowMs s ⟨now, .refill key granted w⟩) ∧
      (InStep windowMs s ⟨now, .refill key granted w⟩ →
        Mirrors windowMs now (memoryCall s ⟨now, .refill key granted w⟩).1
          (redisCall windowMs db ⟨now, .refill key granted w⟩).1) := by
  have hhealthy : ¬ (!s.healthy) = true := by simp [h.healthy]
  rw [memoryCall, redisCall, InStep]
  dsimp only
  rcases lt_or_ge granted 0 with hneg | hnonneg
  · rw [Escrow.refill, if_neg hhealthy, if_pos (by exact_mod_cast hneg), if_pos hneg, refusal,
      if_neg hhealthy, if_pos hneg]
    exact ⟨iff_of_true rfl fun hpos => absurd hpos hneg.not_gt, fun _ => h⟩
  have hnonneg' : ¬ (granted : ℚ) < 0 := by exact_mod_cast hnonneg.not_gt
  rcases lt_or_ge w 0 with hw | hw
  · rw [Escrow.refill, if_neg hhealthy, if_neg hnonneg', if_pos hw, if_neg hnonneg.not_gt,
      if_pos hw, refusal, if_neg hhealthy, if_neg hnonneg.not_gt]
    exact ⟨iff_of_true rfl fun _ hle => absurd hle hw.not_ge, fun _ => h⟩
  rw [if_neg hnonneg.not_gt, if_neg hw.not_gt]
  rcases hnonneg.eq_or_lt with hzero | hpos
  · rw [Escrow.refill, if_neg hhealthy, if_neg hnonneg', if_neg hw.not_gt,
      if_pos (by exact_mod_cast hzero.symm), if_pos hzero.symm]
    exact ⟨iff_of_true rfl fun hpos => absurd hzero hpos.ne, fun _ => h⟩
  rw [if_neg hpos.ne']
  have hpos' : (0 : ℚ) < granted := by exact_mod_cast hpos
  rcases le_or_gt (w + windowMs) now with hexpired | hnow
  · rw [Escrow.refill, if_neg hhealthy, if_neg hnonneg', if_neg hw.not_gt, if_neg hpos'.ne',
      refillLua]
    dsimp only
    rw [h.windowMs_eq, if_pos hexpired, if_pos hexpired, idle_store]
    exact ⟨iff_of_true rfl fun _ _ hlt => absurd hlt hexpired.not_gt, fun _ => h⟩
  obtain ⟨hmemory, k, hredis⟩ := h.refill_some key hpos' hw hnow
  rw [hmemory, hredis]
  dsimp only
  by_cases hwhole : WholeExpiry (w + windowMs) now
  · rw [commit_of_wholeExpiry k hwhole hnow]
    refine ⟨iff_of_true rfl fun _ _ _ => hwhole, fun _ => h.write ?_⟩
    obtain ⟨n, hn⟩ : ∃ n : ℕ, held (s.entries key) w + granted = n := by
      lift granted to ℕ using hnonneg
      cases he : s.entries key with
      | none => exact ⟨granted, by rw [held_none, zero_add, Int.cast_natCast]⟩
      | some e =>
        obtain ⟨n, hn⟩ := (h.key key).whole e he
        rw [held_some]
        split
        · exact ⟨n + granted, by rw [hn]; push_cast; rfl⟩
        · exact ⟨granted, by rw [zero_add, Int.cast_natCast]⟩
    rw [hn]
    exact .committed hwhole
  · rw [commit_of_not_wholeExpiry k hwhole]
    refine ⟨iff_of_false (fun heq => ?_) fun hall => hwhole (hall hpos hw hnow),
      fun hall => absurd (hall hpos hw hnow) hwhole⟩
    cases Reply.applied.inj heq

/-- A release is replied to alike where the hash is still there, or there is nothing left. -/
theorem Mirrors.release (h : Mirrors windowMs now s db) (key : String) (w : ℚ) :
    ((memoryCall s ⟨now, .release key w⟩).2 = (redisCall windowMs db ⟨now, .release key w⟩).2 ↔
      InStep windowMs s ⟨now, .release key w⟩) ∧
      (InStep windowMs s ⟨now, .release key w⟩ →
        Mirrors windowMs now (memoryCall s ⟨now, .release key w⟩).1
          (redisCall windowMs db ⟨now, .release key w⟩).1) := by
  have hhealthy : ¬ (!s.healthy) = true := by simp [h.healthy]
  have hkey := h.key key
  rw [memoryCall, redisCall, InStep]
  dsimp only
  rcases lt_or_ge w 0 with hw | hw
  · rw [Escrow.release, if_neg hhealthy, if_pos hw, if_pos hw, refusal, if_neg hhealthy]
    exact ⟨iff_of_true rfl fun hle => absurd hle hw.not_ge, fun _ => h⟩
  rw [Escrow.release, if_neg hhealthy, if_neg hw.not_gt, if_neg hw.not_gt, releaseLua,
    hkey.found now le_rfl]
  cases he : s.entries key with
  | none =>
    rw [Option.filter_none, Option.filter_none, idle_store, idle_amount]
    exact ⟨iff_of_true rfl (by rintro - e ⟨⟩), fun _ => h⟩
  | some e =>
    rw [he] at hkey
    obtain ⟨n, hn⟩ := hkey.whole e rfl
    obtain ⟨hends, -⟩ := hkey.ends e rfl
    dsimp only
    by_cases hsource : e.sourceLease = w
    · rw [if_neg (not_not.mpr hsource)]
      rw [hsource] at hends
      rw [← hends]
      rcases le_or_gt now ⌈e.expiresAt⌉ with hlive | hlate
      · rw [Option.filter_some, if_pos (decide_eq_true hlive), Option.filter_some,
          if_pos (decide_eq_true hsource)]
        dsimp only
        refine ⟨iff_of_true ?_ fun _ _ _ _ _ => hlive, fun _ => h.write (.none fun _ _ => rfl)⟩
        rw [hn, Outcome.replied, luaInteger_natCast]
        exact congrArg (Reply.amount ∘ Except.ok) (Int.cast_natCast n).symm
      · -- the hash is gone
        have hgone : Option.filter (fun e => decide (now ≤ ⌈e.expiresAt⌉)) (some e) = none := by
          rw [Option.filter_some, if_neg]
          rw [decide_eq_true_iff]
          exact not_le.mpr hlate
        rw [hgone, Option.filter_none]
        dsimp only
        rw [idle_amount]
        constructor
        · constructor
          · intro heq _ e' he' _ hpos
            obtain rfl := Option.some.inj he'
            exact absurd (Except.ok.inj (Reply.amount.inj heq)) hpos.ne'
          · intro hall
            have hzero : n = 0 := by
              by_contra hne
              refine hlate.not_ge (hall hw e rfl hsource ?_)
              rw [hn]
              exact_mod_cast Nat.pos_of_ne_zero hne
            rw [hn, hzero, Nat.cast_zero]
        · refine fun _ => h.write (.none fun t ht => ?_)
          rw [Outcome.idle, hkey.found t ht, Option.filter_some, if_neg]
          rw [decide_eq_true_iff]
          exact not_le.mpr (hlate.trans_le ht)
    · have hother : Option.filter (fun e => decide (e.sourceLease = w))
          (Option.filter (fun e => decide (now ≤ ⌈e.expiresAt⌉)) (some e)) = none := by
        rw [Option.filter_filter, Option.filter_some, if_neg]
        simp [hsource]
      rw [if_pos hsource, hother]
      dsimp only
      rw [idle_store, idle_amount]
      refine ⟨iff_of_true rfl ?_, fun _ => h⟩
      rintro - e' ⟨⟩ hsame
      exact absurd hsame hsource

end AllKeys

/-! ### All calls -/

/-- **When the replies are the same.** For any keys, windows and whole amounts, at times that do not
go back, the escrow in memory and the one on Redis reply alike just where every refill that is
applied can set its expiry and every release that finds a leftover comes by the end of its
window. -/
theorem replies_eq_iff (windowMs : ℚ) {ts : List Timed}
    (hsorted : ts.Pairwise fun t t' => t.now ≤ t'.now) :
    answers memoryCall (Escrow.new windowMs) ts = answers (redisCall windowMs) (fun _ => none) ts ↔
      AllMet memoryCall (InStep windowMs) (Escrow.new windowMs) ts := by
  have hstep : ∀ s db (t : Timed), Mirrors windowMs t.now s db → True → True →
      ((memoryCall s t).2 = id (redisCall windowMs db t).2 ↔ InStep windowMs s t) ∧
        (InStep windowMs s t →
          Mirrors windowMs t.now (memoryCall s t).1 (redisCall windowMs db t).1) := by
    rintro s db ⟨now, call⟩ h - -
    cases call with
    | lease key tokens =>
      obtain ⟨hreply, hnext⟩ := h.lease key tokens
      exact ⟨iff_of_true hreply trivial, fun _ => hnext⟩
    | refill key granted w => exact h.refill key granted w
    | release key w => exact h.release key w
  have hiff := answers_eq_map_iff_of_start (fun hle h => h.mono hle) hstep
    (mirrors_start windowMs) hsorted (allMet_true _ _) (allMet_true _ _)
  rwa [List.map_id] at hiff

/-- A window of a second: refilled, leased from, and released at its end. -/
theorem replies_eq_iff_second :
    answers memoryCall (Escrow.new 1000)
        [⟨0, .refill "k" 10 0⟩, ⟨7, .lease "k" 4⟩, ⟨1000, .release "k" 0⟩]
      = answers (redisCall 1000) (fun _ => none)
        [⟨0, .refill "k" 10 0⟩, ⟨7, .lease "k" 4⟩, ⟨1000, .release "k" 0⟩] ↔
    AllMet memoryCall (InStep 1000) (Escrow.new 1000)
      [⟨0, .refill "k" 10 0⟩, ⟨7, .lease "k" 4⟩, ⟨1000, .release "k" 0⟩] :=
  replies_eq_iff 1000 (by decide)

/-- Released a millisecond later: six are left, and Redis finds none. -/
theorem replies_ne_release :
    ¬ ∀ (windowMs : ℚ) (ts : List Timed), 1 ≤ windowMs → ts.Pairwise (fun t t' => t.now ≤ t'.now) →
      answers memoryCall (Escrow.new windowMs) ts
        = answers (redisCall windowMs) (fun _ => none) ts := by
  intro h
  have heq := h 1000 [⟨0, .refill "k" 10 0⟩, ⟨7, .lease "k" 4⟩, ⟨1001, .release "k" 0⟩]
    (by norm_num) (by decide)
  have hpaid := congrArg (List.map Reply.paid) heq
  revert hpaid
  decide +kernel

end ThrottleKit.RedisRegionalEscrow
