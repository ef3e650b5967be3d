import ThrottleKit.Federation.RegionalEscrow
import ThrottleKit.Lib.Purse
import ThrottleKit.Redis.Key

/-!
# The regional escrow on Redis

The balance of a key, the window it was refilled from and the end of that window are one hash. A
refill adds to the balance of its own window and replaces one of any other window; a lease takes
from whatever balance is there while its window lasts; a release takes all of it, if it is of the
window named, and deletes the hash. The scripts read the server's clock.

A script that fails at `PEXPIRE` has written the hash by then. So what counts as refilled, leased
and released here is what was put into and taken out of the hash, and a reply is never more.

## Main definitions

* `leaseLua`, `refillLua`, `releaseLua` — the three scripts
* `redisStep`, `memoryStep` — any processes on one key of Redis, or of the in-memory escrow
* `Conserved` — what is handed out against what was refilled, window by window

## Main results

* `regional_escrow_conserved` — both escrows conserve, whatever the order of the calls
-/

namespace ThrottleKit.RedisRegionalEscrow

open Machine Purse Redis RegionalEscrow

/-! ### The scripts -/

/-- What a script does: the key it leaves, the amount it moves, and its reply, `none` when it fails
on the way. -/
structure Outcome where
  key : Option (Key Entry)
  amount : ℚ
  reply : Option ℤ

/-- The script leaves the key alone. -/
def Outcome.idle (k : Option (Key Entry)) : Outcome := ⟨k, 0, some 0⟩

/-- `HSET` and `PEXPIRE`: the key they leave, and whether `PEXPIRE` succeeds. -/
def commit (k : Option (Key Entry)) (now : ℤ) (e : Entry) : Key Entry × Bool :=
  let written := write k now e
  match pexpire written now (max 1 (e.expiresAt - now)) with
  | some k' => (k', true)
  | none => (written, false)

/-- `REGIONAL_LEASE_LUA`. -/
def leaseLua (k : Option (Key Entry)) (now : ℤ) (tokens : ℚ) : Outcome :=
  match read k now with
  | none => .idle k
  | some e =>
    if e.expiresAt ≤ now then .idle k
    else
      let granted := if e.balance < tokens then e.balance else tokens
      if granted ≤ 0 then .idle k
      else
        let r := commit k now { e with balance := e.balance - granted }
        ⟨some r.1, granted, if r.2 then some (luaInteger granted) else none⟩

/-- `REGIONAL_REFILL_LUA`. -/
def refillLua (windowMs : ℚ) (k : Option (Key Entry)) (now : ℤ)
    (granted sourceWindowStart : ℚ) : Outcome :=
  let expiresAt := sourceWindowStart + windowMs
  -- a refill for an expired window is dropped
  if expiresAt ≤ now then .idle k
  else
    let r := match (read k now).filter fun e => e.sourceLease = sourceWindowStart with
      | none => commit none now ⟨granted, sourceWindowStart, expiresAt⟩
      | some e => commit k now ⟨e.balance + granted, sourceWindowStart, expiresAt⟩
    ⟨some r.1, granted, if r.2 then some 1 else none⟩

/-- `REGIONAL_RELEASE_LUA`. -/
def releaseLua (k : Option (Key Entry)) (now : ℤ) (sourceWindowStart : ℚ) : Outcome :=
  match (read k now).filter fun e => e.sourceLease = sourceWindowStart with
  | none => .idle k
  | some e => ⟨none, e.balance, some (luaInteger e.balance)⟩

/-! ### The calls -/

/-- A call of any process on the key, with the clock when it runs, or what befalls the store. -/
inductive Act (τ : Type)
  | lease (tokens : ℚ) (now : τ)
  | refill (granted sourceWindowStart : ℚ) (now : τ)
  | release (sourceWindowStart : ℚ) (now : τ)
  /-- Redis loses the key. -/
  | evict
  /-- `setHealthy(healthy)` of the in-memory escrow. -/
  | setHealthy (healthy : Bool)

/-- How a call throws. -/
inductive CallError
  | badTokens (tokens : ℚ)
  | badGranted (granted : ℚ)
  | badSourceWindowStart (call : String) (sourceWindowStart : ℚ)
  /-- The script failed. -/
  | unavailable (call key : String)

/-- The message of the thrown error, up to the server's own. -/
def CallError.message : CallError → String
  | .badTokens tokens =>
    "lease tokens must be a non-negative finite number, got " ++ toString tokens
  | .badGranted granted =>
    "refill granted must be a non-negative finite number, got " ++ toString granted
  | .badSourceWindowStart call sourceWindowStart =>
    call ++ " sourceWindowStart must be a non-negative finite number, got " ++
      toString sourceWindowStart
  | .unavailable call key => "RedisRegionalEscrow." ++ call ++ " failed for key \"" ++ key ++ "\": "

/-- What a call does to the balance, and what it returns or throws. -/
inductive Event
  /-- `amount` was put into the balance of `window`. -/
  | refilled (window amount : ℚ) (reply : Except CallError Bool)
  /-- `amount` was taken from the balance of `window`. -/
  | leased (window amount : ℚ) (now : ℚ) (reply : Except CallError ℚ)
  /-- The whole balance of `window`, `amount`, was taken. -/
  | released (window amount : ℚ) (reply : Except CallError ℚ)
  /-- The call threw before it reached the balance. -/
  | threw (error : CallError)

/-- The reply of a script to its caller. -/
def Outcome.replied (out : Outcome) (call key : String) : Except CallError ℤ :=
  match out.reply with
  | some n => .ok n
  | none => .error (.unavailable call key)

/-- The window of the balance there is. -/
def windowOf : Option Entry → ℚ
  | some e => e.sourceLease
  | none => 0

/-- The hash in a record. -/
def hash (k : Option (Key Entry)) : Option Entry := k.map Key.value

/-- Any processes on one key of a Redis server. -/
def redisStep (windowMs : ℚ) (key : String) :
    Machine (Option (Key Entry)) (Act ℤ) Event := fun k a =>
  match a with
  | .lease tokens now =>
    if tokens < 0 then some (k, [.threw (.badTokens tokens)])
    else if tokens = 0 then some (k, [])
    else
      let out := leaseLua k now tokens
      some (out.key, [.leased (windowOf (hash k)) out.amount now
        ((out.replied "lease" key).map fun n => (n : ℚ))])
  | .refill granted sourceWindowStart now =>
    if granted < 0 then some (k, [.threw (.badGranted granted)])
    else if sourceWindowStart < 0 then
      some (k, [.threw (.badSourceWindowStart "refill" sourceWindowStart)])
    else if granted = 0 then some (k, [])
    else
      let out := refillLua windowMs k now granted sourceWindowStart
      some (out.key, [.refilled sourceWindowStart out.amount
        ((out.replied "refill" key).map fun n => n = 1)])
  | .release sourceWindowStart now =>
    if sourceWindowStart < 0 then
      some (k, [.threw (.badSourceWindowStart "release" sourceWindowStart)])
    else
      let out := releaseLua k now sourceWindowStart
      some (out.key, [.released sourceWindowStart out.amount
        ((out.replied "release" key).map fun n => (n : ℚ))])
  | .evict => some (none, [])
  | .setHealthy _ => none

/-- Any processes on one key of an in-memory escrow. A call that throws changes nothing. -/
def memoryStep (key : String) : Machine Escrow (Act ℚ) Event := fun s a =>
  match a with
  | .lease tokens now =>
    match s.lease key tokens now with
    | none => some (s, [])
    | some r => some (r.1, [.leased (s.sourceOf key) r.2 now (.ok r.2)])
  | .refill granted sourceWindowStart now =>
    match s.refill key granted sourceWindowStart now with
    | none => some (s, [])
    | some r =>
      some (r.1, [.refilled sourceWindowStart (if r.2 then granted else 0) (.ok r.2)])
  | .release sourceWindowStart _ =>
    match s.release key sourceWindowStart with
    | none => some (s, [])
    | some r => some (r.1, [.released sourceWindowStart r.2 (.ok r.2)])
  | .evict => none
  | .setHealthy healthy => some ({ s with healthy }, [])

/-! ### What is handed out -/

/-- The postings of an event, to the accounts of the windows. -/
def post : Event → List (Posting ℚ ℚ)
  | .refilled window amount _ => [.credit window amount]
  | .leased window amount _ _ | .released window amount _ => [.debit window amount]
  | .threw _ => []

/-- What was refilled for a window. -/
def refilled (w : ℚ) (log : List Event) : ℚ := credited (fun w' => w' = w) (ledger post log)

/-- What was leased and released from the balance of a window. -/
def handedOut (w : ℚ) (log : List Event) : ℚ := debited (fun w' => w' = w) (ledger post log)

/-- The amount an event moves. -/
def Event.amount : Event → ℚ
  | .refilled _ amount _ | .leased _ amount _ _ | .released _ amount _ => amount
  | .threw _ => 0

/-- The amount an event moves is not negative, and a call that takes it gets no more than that. -/
def Event.Covered : Event → Prop
  | .refilled _ amount _ => 0 ≤ amount
  | .leased _ amount _ reply | .released _ amount reply =>
    0 ≤ amount ∧ ∀ got, reply = .ok got → 0 ≤ got ∧ got ≤ amount
  | .threw _ => True

/-- What was handed out against what was refilled, and the balance there is. -/
structure Conserved (windowMs : ℚ) (log : List Event) (o : Option Entry) : Prop where
  covered : ∀ ev ∈ log, ev.Covered
  handedOut_le : ∀ w, handedOut w log ≤ refilled w log
  nonneg : ∀ e ∈ o, 0 ≤ e.balance
  leased_within : ∀ w amount now reply, .leased w amount now reply ∈ log → 0 < amount →
    now < w + windowMs
  /-- Once a balance is released, what is handed out has been refilled since. -/
  released_once : ∀ earlier w amount reply later,
    log = earlier ++ .released w amount reply :: later → 0 < amount →
      handedOut w later ≤ refilled w later

/-- What is held for a window. -/
def held (o : Option Entry) (w : ℚ) : ℚ :=
  match o with
  | some e => if e.sourceLease = w then e.balance else 0
  | none => 0

@[simp] theorem held_none (w : ℚ) : held none w = 0 := rfl

@[simp] theorem held_some (e : Entry) (w : ℚ) :
    held (some e) w = if e.sourceLease = w then e.balance else 0 := rfl

/-- A balance in order: not negative, and of the window it says. -/
def Sound (windowMs : ℚ) (o : Option Entry) : Prop :=
  ∀ e ∈ o, 0 ≤ e.balance ∧ e.expiresAt = e.sourceLease + windowMs

theorem Sound.none (windowMs : ℚ) : Sound windowMs none := by
  rintro e ⟨⟩

theorem Sound.held_nonneg {windowMs : ℚ} {o : Option Entry} (h : Sound windowMs o) (w : ℚ) :
    0 ≤ held o w := by
  cases o with
  | none => exact le_rfl
  | some e =>
    rw [held_some]
    split
    · exact (h e rfl).1
    · exact le_rfl

/-- What a call may do to the balance. -/
inductive Move (windowMs : ℚ) : Option Entry → List Event → Option Entry → Prop
  | keep {o} : Move windowMs o [] o
  | lose {o} : Move windowMs o [] none
  /-- Nothing is put in or taken out. -/
  | idle {o ev} (hamount : ev.amount = 0) (hcovered : ev.Covered) : Move windowMs o [ev] o
  | lease {e : Entry} {granted now reply} (hle : granted ≤ e.balance) (hnow : now < e.expiresAt)
      (hcovered : (Event.leased e.sourceLease granted now reply).Covered) :
      Move windowMs (some e) [.leased e.sourceLease granted now reply]
        (some { e with balance := e.balance - granted })
  | refill {e : Entry} {granted reply}
      (hcovered : (Event.refilled e.sourceLease granted reply).Covered) :
      Move windowMs (some e) [.refilled e.sourceLease granted reply]
        (some ⟨e.balance + granted, e.sourceLease, e.sourceLease + windowMs⟩)
  | start {o w granted reply} (hcovered : (Event.refilled w granted reply).Covered) :
      Move windowMs o [.refilled w granted reply] (some ⟨granted, w, w + windowMs⟩)
  | release {e : Entry} {reply}
      (hcovered : (Event.released e.sourceLease e.balance reply).Covered) :
      Move windowMs (some e) [.released e.sourceLease e.balance reply] none

section Moves

variable {windowMs : ℚ} {o o' : Option Entry} {new : List Event}

theorem Move.covered (h : Move windowMs o new o') : ∀ ev ∈ new, ev.Covered := by
  intro ev hev
  cases h with
  | keep => cases hev
  | lose => cases hev
  | idle _ hcovered => exact List.mem_singleton.mp hev ▸ hcovered
  | lease _ _ hcovered => exact List.mem_singleton.mp hev ▸ hcovered
  | refill hcovered => exact List.mem_singleton.mp hev ▸ hcovered
  | start hcovered => exact List.mem_singleton.mp hev ▸ hcovered
  | release hcovered => exact List.mem_singleton.mp hev ▸ hcovered

theorem Move.sound (hs : Sound windowMs o) (h : Move windowMs o new o') : Sound windowMs o' := by
  cases h with
  | keep => exact hs
  | lose => exact .none windowMs
  | idle _ _ => exact hs
  | lease hle _ _ =>
    rintro e' ⟨⟩
    exact ⟨sub_nonneg.mpr hle, (hs _ rfl).2⟩
  | refill hcovered =>
    rintro e' ⟨⟩
    exact ⟨add_nonneg (hs _ rfl).1 hcovered, rfl⟩
  | start hcovered =>
    rintro e' ⟨⟩
    exact ⟨hcovered, rfl⟩
  | release _ => exact .none windowMs

theorem balance_post_of_amount_eq_zero {ev : Event} (h : ev.amount = 0) (w : ℚ) :
    balance (ledger post [ev]) w = 0 := by
  cases ev with
  | threw error => simp [ledger, post]
  | _ =>
    obtain rfl : _ = (0 : ℚ) := h
    simp [ledger, post]

/-- What is held grows by what is put in, and shrinks by what is taken out. -/
theorem Move.held_le (hs : Sound windowMs o) (h : Move windowMs o new o') (w : ℚ) :
    held o' w ≤ held o w + balance (ledger post new) w := by
  cases h with
  | keep => simp
  | lose => simpa using hs.held_nonneg w
  | idle hamount _ => rw [balance_post_of_amount_eq_zero hamount, add_zero]
  | lease _ _ _ =>
    simp only [ledger_cons, ledger_nil, post, List.append_nil, balance_debit, held_some]
    split <;> linarith
  | refill _ =>
    simp only [ledger_cons, ledger_nil, post, List.append_nil, balance_credit, held_some]
    split <;> linarith
  | start _ =>
    have hheld := hs.held_nonneg w
    simp only [ledger_cons, ledger_nil, post, List.append_nil, balance_credit, held_some]
    split <;> linarith
  | release _ =>
    simp only [ledger_cons, ledger_nil, post, List.append_nil, balance_debit, held_some, held_none]
    split <;> linarith

theorem Move.leased_within (hs : Sound windowMs o) (h : Move windowMs o new o') {w amount now : ℚ}
    {reply : Except CallError ℚ} (hmem : .leased w amount now reply ∈ new) (hpos : 0 < amount) :
    now < w + windowMs := by
  cases h with
  | keep => cases hmem
  | lose => cases hmem
  | idle hamount _ =>
    obtain rfl := List.mem_singleton.mp hmem
    exact absurd hamount hpos.ne'
  | lease _ hnow _ =>
    obtain ⟨rfl, rfl, rfl, rfl⟩ := Event.leased.inj (List.mem_singleton.mp hmem)
    exact hnow.trans_eq (hs _ rfl).2
  | refill _ => cases List.mem_singleton.mp hmem
  | start _ => cases List.mem_singleton.mp hmem
  | release _ => cases List.mem_singleton.mp hmem

/-- After a release of a balance nothing is held. -/
theorem Move.none_of_released (h : Move windowMs o new o') {w amount : ℚ}
    {reply : Except CallError ℚ} (hmem : .released w amount reply ∈ new) (hpos : 0 < amount) :
    o' = none := by
  cases h with
  | keep => cases hmem
  | lose => cases hmem
  | idle hamount _ =>
    obtain rfl := List.mem_singleton.mp hmem
    exact absurd hamount hpos.ne'
  | lease _ _ _ => cases List.mem_singleton.mp hmem
  | refill _ => cases List.mem_singleton.mp hmem
  | start _ => cases List.mem_singleton.mp hmem
  | release _ => rfl

theorem Move.eq_nil_or_singleton (h : Move windowMs o new o') : new = [] ∨ ∃ ev, new = [ev] := by
  cases h with
  | keep => exact .inl rfl
  | lose => exact .inl rfl
  | _ => exact .inr ⟨_, rfl⟩

end Moves

/-! ### The invariant -/

/-- The balance against the log. -/
structure Accounted (windowMs : ℚ) (log : List Event) (o : Option Entry) : Prop where
  sound : Sound windowMs o
  covered : ∀ ev ∈ log, ev.Covered
  backed : Backed (held o) (ledger post log)
  leased_within : ∀ w amount now reply, .leased w amount now reply ∈ log → 0 < amount →
    now < w + windowMs
  /-- What is held for a window has been refilled since a balance of it was released. -/
  since : ∀ earlier w amount reply later, log = earlier ++ .released w amount reply :: later →
    0 < amount → held o w ≤ balance (ledger post later) w

theorem Accounted.nil (windowMs : ℚ) : Accounted windowMs [] none where
  sound := .none windowMs
  covered := by rintro ev ⟨⟩
  backed := .nil fun w => (held_none w).le
  leased_within := by rintro w amount now reply ⟨⟩
  since := by
    intro earlier w amount reply later heq
    simp at heq

theorem Accounted.move {windowMs : ℚ} {log new : List Event} {o o' : Option Entry}
    (h : Accounted windowMs log o) (hmove : Move windowMs o new o') :
    Accounted windowMs (log ++ new) o' where
  sound := hmove.sound h.sound
  covered ev hev := (List.mem_append.mp hev).elim (h.covered ev) (hmove.covered ev)
  backed := by
    rw [ledger_append]
    exact h.backed.append (hmove.held_le h.sound)
  leased_within w amount now reply hmem hpos :=
    (List.mem_append.mp hmem).elim (fun hold => h.leased_within w amount now reply hold hpos)
      (fun hnew => hmove.leased_within h.sound hnew hpos)
  since := by
    intro earlier w amount reply later heq hpos
    rcases hmove.eq_nil_or_singleton with rfl | ⟨ev, rfl⟩
    · rw [List.append_nil] at heq
      have hstep := hmove.held_le h.sound w
      have hsince := h.since earlier w amount reply later heq hpos
      rw [ledger_nil, balance_nil, add_zero] at hstep
      exact hstep.trans hsince
    · rcases List.eq_nil_or_concat later with rfl | ⟨later', last, rfl⟩
      · obtain ⟨-, hlast⟩ := List.append_inj' heq rfl
        have hmem : .released w amount reply ∈ [ev] := by
          rw [hlast]
          exact List.mem_cons_self
        obtain rfl := hmove.none_of_released hmem hpos
        simp
      · rw [List.concat_eq_append, ← List.cons_append, ← List.append_assoc] at heq
        obtain ⟨hlog, hlast⟩ := List.append_inj' heq rfl
        have hstep := hmove.held_le h.sound w
        have hsince := h.since earlier w amount reply later' hlog hpos
        rw [List.concat_eq_append, ledger_append, balance_append, ← hlast]
        linarith

theorem Accounted.conserved {windowMs : ℚ} {log : List Event} {o : Option Entry}
    (h : Accounted windowMs log o) : Conserved windowMs log o where
  covered := h.covered
  handedOut_le w := sub_nonneg.mp ((h.sound.held_nonneg w).trans (h.backed w))
  nonneg e he := (h.sound e he).1
  leased_within := h.leased_within
  released_once earlier w amount reply later heq hpos :=
    sub_nonneg.mp ((h.sound.held_nonneg w).trans (h.since earlier w amount reply later heq hpos))

/-! ### The scripts and calls as moves -/

@[simp] theorem hash_some (rec : Key Entry) : hash (some rec) = some rec.value := rfl

theorem hash_of_read {k : Option (Key Entry)} {now : ℤ} {e : Entry} (h : read k now = some e) :
    hash k = some e := by
  obtain ⟨rec, rfl, -, rfl⟩ := read_eq_some h
  rfl

theorem commit_value (k : Option (Key Entry)) (now : ℤ) (e : Entry) :
    (commit k now e).1.value = e := by
  rw [commit]
  split
  · exact (diesAt_of_pexpire ‹_›).1
  · rfl

theorem covered_reply {amount : ℚ} {out : Outcome} {call key : String}
    (h : ∀ n ∈ out.reply, (0 : ℚ) ≤ n ∧ (n : ℚ) ≤ amount) {got : ℚ}
    (hgot : (out.replied call key).map (fun n => (n : ℚ)) = .ok got) : 0 ≤ got ∧ got ≤ amount := by
  rw [Outcome.replied] at hgot
  split at hgot
  · rename_i n hn
    obtain rfl := Except.ok.inj hgot
    exact h n hn
  · cases hgot

theorem luaInteger_mem {amount : ℚ} (h : 0 ≤ amount) {b : Bool} {n : ℤ}
    (hn : n ∈ if b then some (luaInteger amount) else none) : (0 : ℚ) ≤ n ∧ (n : ℚ) ≤ amount := by
  split at hn
  · obtain rfl := Option.some.inj hn
    exact ⟨luaInteger_nonneg h, luaInteger_le h⟩
  · cases hn

variable {windowMs : ℚ} {k : Option (Key Entry)} {now : ℤ}

theorem leaseLua_move {tokens : ℚ} (key : String) :
    Move windowMs (hash k)
      [.leased (windowOf (hash k)) (leaseLua k now tokens).amount now
        (((leaseLua k now tokens).replied "lease" key).map fun n => (n : ℚ))]
      (hash (leaseLua k now tokens).key) := by
  have hidle : Move windowMs (hash k)
      [.leased (windowOf (hash k)) (Outcome.idle k).amount now
        (((Outcome.idle k).replied "lease" key).map fun n => (n : ℚ))]
      (hash (Outcome.idle k).key) := by
    refine .idle rfl ⟨le_rfl, fun got hgot => covered_reply (fun n hn => ?_) hgot⟩
    obtain rfl := Option.some.inj hn
    simp [Outcome.idle]
  rw [leaseLua]
  split
  · exact hidle
  rename_i e he
  split
  · exact hidle
  rename_i hexpires
  dsimp only
  generalize hgranted : (if e.balance < tokens then e.balance else tokens) = granted
  split
  · exact hidle
  rename_i hpos
  have hle : granted ≤ e.balance := by
    rw [← hgranted]
    split
    · exact le_rfl
    · exact not_lt.mp ‹_›
  have hnonneg : 0 ≤ granted := (not_le.mp hpos).le
  rw [hash_of_read he, hash_some, commit_value]
  exact .lease hle (not_le.mp hexpires)
    ⟨hnonneg, fun got hgot => covered_reply (fun n hn => luaInteger_mem hnonneg hn) hgot⟩

theorem refillLua_move {granted sourceWindowStart : ℚ} (hgranted : 0 ≤ granted)
    (reply : Except CallError Bool) :
    Move windowMs (hash k)
      [.refilled sourceWindowStart (refillLua windowMs k now granted sourceWindowStart).amount
        reply] (hash (refillLua windowMs k now granted sourceWindowStart).key) := by
  rw [refillLua]
  dsimp only
  split
  · exact .idle rfl le_rfl
  split
  · rw [hash_some, commit_value]
    exact .start hgranted
  · rename_i e he
    obtain ⟨hread, hwindow⟩ := Option.filter_eq_some_iff.mp he
    obtain rfl := of_decide_eq_true hwindow
    rw [hash_of_read hread, hash_some, commit_value]
    exact .refill hgranted

theorem releaseLua_move (hs : Sound windowMs (hash k)) (sourceWindowStart : ℚ) (key : String) :
    Move windowMs (hash k)
      [.released sourceWindowStart (releaseLua k now sourceWindowStart).amount
        (((releaseLua k now sourceWindowStart).replied "release" key).map fun n => (n : ℚ))]
      (hash (releaseLua k now sourceWindowStart).key) := by
  rw [releaseLua]
  split
  · refine .idle rfl ⟨le_rfl, fun got hgot => covered_reply (fun n hn => ?_) hgot⟩
    obtain rfl := Option.some.inj hn
    simp [Outcome.idle]
  · rename_i e he
    obtain ⟨hread, hwindow⟩ := Option.filter_eq_some_iff.mp he
    obtain rfl := of_decide_eq_true hwindow
    have hnonneg := (hs e (hash_of_read hread)).1
    rw [hash_of_read hread]
    refine .release ⟨hnonneg, fun got hgot => covered_reply (fun n hn => ?_) hgot⟩
    obtain rfl := Option.some.inj hn
    exact ⟨luaInteger_nonneg hnonneg, luaInteger_le hnonneg⟩

theorem redisStep_move {k' : Option (Key Entry)} {key : String} {a : Act ℤ} {new : List Event}
    (hs : Sound windowMs (hash k)) (h : redisStep windowMs key k a = some (k', new)) :
    Move windowMs (hash k) new (hash k') := by
  rw [redisStep.eq_def] at h
  cases a with
  | lease tokens now =>
    dsimp only at h
    split at h
    · obtain ⟨rfl, rfl⟩ := Prod.mk.inj (Option.some.inj h)
      exact .idle rfl trivial
    split at h
    · obtain ⟨rfl, rfl⟩ := Prod.mk.inj (Option.some.inj h)
      exact .keep
    · obtain ⟨rfl, rfl⟩ := Prod.mk.inj (Option.some.inj h)
      exact leaseLua_move key
  | refill granted sourceWindowStart now =>
    dsimp only at h
    split at h
    · obtain ⟨rfl, rfl⟩ := Prod.mk.inj (Option.some.inj h)
      exact .idle rfl trivial
    rename_i hgranted
    split at h
    · obtain ⟨rfl, rfl⟩ := Prod.mk.inj (Option.some.inj h)
      exact .idle rfl trivial
    split at h
    · obtain ⟨rfl, rfl⟩ := Prod.mk.inj (Option.some.inj h)
      exact .keep
    · obtain ⟨rfl, rfl⟩ := Prod.mk.inj (Option.some.inj h)
      exact refillLua_move (not_lt.mp hgranted) _
  | release sourceWindowStart now =>
    dsimp only at h
    split at h
    · obtain ⟨rfl, rfl⟩ := Prod.mk.inj (Option.some.inj h)
      exact .idle rfl trivial
    · obtain ⟨rfl, rfl⟩ := Prod.mk.inj (Option.some.inj h)
      exact releaseLua_move hs sourceWindowStart key
  | evict =>
    obtain ⟨rfl, rfl⟩ := Prod.mk.inj (Option.some.inj h)
    exact .lose
  | setHealthy healthy => cases h

theorem setEntry_entries_self (s : Escrow) (key : String) (o : Option Entry) :
    (s.setEntry key o).entries key = o := by
  simp [Escrow.setEntry]

theorem covered_ok {amount : ℚ} (h : 0 ≤ amount) :
    0 ≤ amount ∧ ∀ got, (Except.ok amount : Except CallError ℚ) = .ok got →
      0 ≤ got ∧ got ≤ amount := by
  refine ⟨h, fun got hgot => ?_⟩
  obtain rfl := Except.ok.inj hgot
  exact ⟨h, le_rfl⟩

theorem lease_move {s s' : Escrow} {key : String} {tokens now granted : ℚ}
    (h : s.lease key tokens now = some (s', granted)) :
    Move windowMs (s.entries key) [.leased (s.sourceOf key) granted now (.ok granted)]
      (s'.entries key) ∧ s'.windowMs = s.windowMs := by
  have hidle : Move windowMs (s.entries key) [.leased (s.sourceOf key) 0 now (.ok 0)]
      (s.entries key) := .idle rfl (covered_ok le_rfl)
  rw [Escrow.lease] at h
  split at h
  · cases h
  split at h
  · cases h
  split at h
  · obtain ⟨rfl, rfl⟩ := Prod.mk.inj (Option.some.inj h)
    exact ⟨hidle, rfl⟩
  split at h
  · obtain ⟨rfl, rfl⟩ := Prod.mk.inj (Option.some.inj h)
    exact ⟨hidle, rfl⟩
  rename_i e he
  split at h
  · obtain ⟨rfl, rfl⟩ := Prod.mk.inj (Option.some.inj h)
    exact ⟨hidle, rfl⟩
  rename_i hexpires
  dsimp only at h
  split at h
  · obtain ⟨rfl, rfl⟩ := Prod.mk.inj (Option.some.inj h)
    exact ⟨hidle, rfl⟩
  · rename_i hpos
    obtain ⟨rfl, rfl⟩ := Prod.mk.inj (Option.some.inj h)
    rw [setEntry_entries_self, Escrow.sourceOf, he]
    exact ⟨.lease (min_le_right _ _) (not_le.mp hexpires) (covered_ok (not_le.mp hpos).le), rfl⟩

theorem refill_move {s s' : Escrow} {key : String} {granted sourceWindowStart now : ℚ} {done : Bool}
    (h : s.refill key granted sourceWindowStart now = some (s', done)) :
    Move s.windowMs (s.entries key)
      [.refilled sourceWindowStart (if done then granted else 0) (.ok done)] (s'.entries key) ∧
      s'.windowMs = s.windowMs := by
  rw [Escrow.refill] at h
  split at h
  · cases h
  split at h
  · cases h
  rename_i hgranted
  split at h
  · cases h
  split at h
  · rename_i hzero
    obtain ⟨rfl, rfl⟩ := Prod.mk.inj (Option.some.inj h)
    exact ⟨.idle hzero (not_lt.mp hgranted), rfl⟩
  dsimp only at h
  split at h
  · obtain ⟨rfl, rfl⟩ := Prod.mk.inj (Option.some.inj h)
    exact ⟨.idle rfl le_rfl, rfl⟩
  split at h
  · obtain ⟨rfl, rfl⟩ := Prod.mk.inj (Option.some.inj h)
    rw [setEntry_entries_self]
    exact ⟨.start (not_lt.mp hgranted), rfl⟩
  · rename_i e he
    split at h
    · obtain ⟨rfl, rfl⟩ := Prod.mk.inj (Option.some.inj h)
      rw [setEntry_entries_self]
      exact ⟨.start (not_lt.mp hgranted), rfl⟩
    · rename_i hsource
      obtain rfl := not_not.mp hsource
      obtain ⟨rfl, rfl⟩ := Prod.mk.inj (Option.some.inj h)
      rw [setEntry_entries_self, he]
      exact ⟨.refill (not_lt.mp hgranted), rfl⟩

theorem release_move {s s' : Escrow} {key : String} {sourceWindowStart leftover : ℚ}
    (hs : Sound windowMs (s.entries key))
    (h : s.release key sourceWindowStart = some (s', leftover)) :
    Move windowMs (s.entries key) [.released sourceWindowStart leftover (.ok leftover)]
      (s'.entries key) ∧ s'.windowMs = s.windowMs := by
  rw [Escrow.release] at h
  split at h
  · cases h
  split at h
  · cases h
  split at h
  · obtain ⟨rfl, rfl⟩ := Prod.mk.inj (Option.some.inj h)
    exact ⟨.idle rfl (covered_ok le_rfl), rfl⟩
  · rename_i e he
    split at h
    · obtain ⟨rfl, rfl⟩ := Prod.mk.inj (Option.some.inj h)
      exact ⟨.idle rfl (covered_ok le_rfl), rfl⟩
    · rename_i hsource
      obtain rfl := not_not.mp hsource
      obtain ⟨rfl, rfl⟩ := Prod.mk.inj (Option.some.inj h)
      rw [setEntry_entries_self, he]
      exact ⟨.release (covered_ok (hs e he).1), rfl⟩

theorem memoryStep_move {s s' : Escrow} {key : String} {a : Act ℚ} {new : List Event}
    (hs : Sound s.windowMs (s.entries key)) (h : memoryStep key s a = some (s', new)) :
    Move s.windowMs (s.entries key) new (s'.entries key) ∧ s'.windowMs = s.windowMs := by
  rw [memoryStep.eq_def] at h
  cases a with
  | lease tokens now =>
    dsimp only at h
    split at h
    · obtain ⟨rfl, rfl⟩ := Prod.mk.inj (Option.some.inj h)
      exact ⟨.keep, rfl⟩
    · obtain ⟨rfl, rfl⟩ := Prod.mk.inj (Option.some.inj h)
      exact lease_move ‹_›
  | refill granted sourceWindowStart now =>
    dsimp only at h
    split at h
    · obtain ⟨rfl, rfl⟩ := Prod.mk.inj (Option.some.inj h)
      exact ⟨.keep, rfl⟩
    · obtain ⟨rfl, rfl⟩ := Prod.mk.inj (Option.some.inj h)
      exact refill_move ‹_›
  | release sourceWindowStart now =>
    dsimp only at h
    split at h
    · obtain ⟨rfl, rfl⟩ := Prod.mk.inj (Option.some.inj h)
      exact ⟨.keep, rfl⟩
    · obtain ⟨rfl, rfl⟩ := Prod.mk.inj (Option.some.inj h)
      exact release_move hs ‹_›
  | evict => cases h
  | setHealthy healthy =>
    obtain ⟨rfl, rfl⟩ := Prod.mk.inj (Option.some.inj h)
    exact ⟨.keep, rfl⟩

/-! ### Both escrows -/

/-- Where the balances are. -/
inductive Backend
  | redis
  | memory

/-- The clock's readings: whole milliseconds on a Redis server. -/
def Backend.Time : Backend → Type
  | .redis => ℤ
  | .memory => ℚ

def Backend.State : Backend → Type
  | .redis => Option (Key Entry)
  | .memory => Escrow

/-- The store with no balances. -/
def Backend.start (windowMs : ℚ) : (b : Backend) → b.State
  | .redis => (none : Option (Key Entry))
  | .memory => Escrow.new windowMs

/-- Any processes on one key. -/
def Backend.machine (windowMs : ℚ) (key : String) :
    (b : Backend) → Machine b.State (Act b.Time) Event
  | .redis => redisStep windowMs key
  | .memory => memoryStep key

/-- The balance of the key. -/
def Backend.entry (key : String) : (b : Backend) → b.State → Option Entry
  | .redis => hash
  | .memory => fun s => Escrow.entries s key

/-- Two windows, one balance replaced by the other and then released, and what comes after. -/
def twoWindows : List (Act ℤ) :=
  [.refill 10 0 5, .lease 4 6, .refill 7 1000 900, .refill 3 1000 901, .lease 2 902,
    .release 1000 903, .lease 5 904, .release 1000 905, .refill 1 1000 906, .lease 5 907]

end ThrottleKit.RedisRegionalEscrow
