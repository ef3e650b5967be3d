import Mathlib.Data.List.Permutation
import ThrottleKit.Lib.Machine
import ThrottleKit.Stores.SequentialKey

/-!
# The store on PostgreSQL

`apply` is a transaction: it takes the advisory lock of its key, selects the row, runs the transform
and upserts the row. Its clock is read before the lock is asked for. `reset` and the sweep delete
rows in a statement of their own and ask for no lock.

So a row that a transaction has selected may be gone when it writes, and what it writes is made of a
state that a reset has forgotten in between. A sweep in that place forgets an expired state only,
and the transaction counts as having come before it, unless it writes a state that the sweep would
have removed too. `Undisturbed` excludes both.

## What the database does

At read committed a statement sees what is committed when it starts. An upsert over a committed row
locks the row until its transaction ends, and a `DELETE` that matches a locked row waits and then
looks at the row again. A row that is inserted and not yet committed is seen by nobody, so a
`DELETE` does not wait for it. Each statement is one action here, at the instant it takes effect,
and each call takes from its clock reading to its last statement, which is as strict as real time
can be.

## Main definitions

* `Db`, `Act`, `step` — any number of clients on one key
* `Undisturbed` — no reset, and no sweep that would remove what is written, comes between the read
  and the end of a transaction that writes over a state it has read

## Main results

* `apply_linearizable` — the undisturbed runs are linearizable
* `reset_loses_to_apply` — one with a reset in that place is not
-/

namespace ThrottleKit.PostgresStore

open SequentialKey Lockstep Linearization

variable {ι S R : Type}

/-- A call that is over, with its answer. -/
abbrev Finished (S R : Type) := Linearization.Call (Op S R) (Option R)

/-- A call of `apply` that has read the clock. -/
structure Request (S R : Type) where
  transform : Option S → ApplyOutcome S R
  now : ℤ
  /-- Ghost: the step at which it did. -/
  invoked : ℕ

/-- How far a transaction has come. -/
inductive Stage (S : Type)
  /-- It has the advisory lock. -/
  | locked
  /-- It has selected the row, and was given its state. -/
  | selected (seen : Option S)
  /-- It has upserted the row, over a committed one or as a new one. -/
  | upserted (seen : Option S) (written : S × ℤ) (updates : Bool)

/-- The transaction that has the advisory lock. -/
structure Txn (S R : Type) where
  request : Request S R
  stage : Stage S

/-- One key of the table. -/
structure Db (ι S R : Type) where
  /-- The committed row, with its `expires_at`. -/
  row : Cell S
  lock : Option (Txn S R)
  /-- The calls that have not got the lock yet. -/
  waiting : ι → Option (Request S R)
  /-- Ghost: the steps so far. -/
  steps : ℕ

/-- What may happen next. -/
inductive Act (ι S R : Type)
  /-- A client calls `apply` and reads its clock. -/
  | start (client : ι) (transform : Option S → ApplyOutcome S R) (now : ℤ)
  /-- The call of a client fails before it gets the lock. -/
  | fail (client : ι)
  /-- `SELECT pg_advisory_xact_lock(..)` of a client returns. -/
  | lock (client : ι)
  | select
  | upsert
  | commit
  /-- A statement has failed. -/
  | rollback
  | reset
  /-- The sweep of a client, at its reading of the clock. -/
  | sweep (now : ℤ)

/-- What the state that a transaction writes expires at. -/
def Request.expiry (r : Request S R) (seen : Option S) : ℤ :=
  deadline r.now (r.transform seen).ttlMs

/-- The upsert, of a transform that persists a state. There is no JSON text for an undefined one,
and the column is `NOT NULL`. -/
def Txn.upsert (t : Txn S R) (row : Cell S) : Option (Txn S R) :=
  match t.stage with
  | .selected seen =>
    if (t.request.transform seen).persist then
      (t.request.transform seen).state.map fun state =>
        { t with stage := .upserted seen (state, t.request.expiry seen) row.isSome }
    else none
  | _ => none

/-- The row that a commit leaves, and the result. -/
def Txn.commit (t : Txn S R) (row : Cell S) : Option (Cell S × R) :=
  match t.stage with
  | .locked => none
  | .selected seen =>
    if (t.request.transform seen).persist then none
    else some (row, (t.request.transform seen).result)
  | .upserted seen written _ => some (some written, (t.request.transform seen).result)

/-- Whether the committed row is locked by an upsert. -/
def Db.rowLocked (db : Db ι S R) : Bool :=
  match db.lock with
  | some ⟨_, .upserted _ _ updates⟩ => updates
  | _ => false

/-- A call that takes effect and ends at this step. -/
def Db.call (db : Db ι S R) (op : Op S R) (answer : Option R) (invoked : ℕ) :
    Finished S R := ⟨op, answer, invoked, db.steps⟩

/-- One more step. -/
def Db.tick (db : Db ι S R) : Db ι S R := { db with steps := db.steps + 1 }

/-- The lock is given back. -/
def Db.release (db : Db ι S R) : Db ι S R := { db with lock := none }

/-- The transaction has moved on. -/
def Db.proceed (db : Db ι S R) (t : Txn S R) : Db ι S R := { db with lock := some t }

/-- The committed row after a statement that commits. -/
def Db.setRow (db : Db ι S R) (row : Cell S) : Db ι S R := { db with row }

/-- `DELETE FROM t WHERE key = $1`. -/
def Db.reset (db : Db ι S R) : Option (Db ι S R × List (Finished S R)) :=
  if db.rowLocked then none else some (db.setRow none, [db.call .reset none db.steps])

/-- `DELETE FROM t WHERE expires_at <= $1`, as far as the key goes. -/
def Db.sweep (db : Db ι S R) (now : ℤ) : Option (Db ι S R × List (Finished S R)) :=
  match db.row with
  | none => some (db, [db.call (.reclaim now) none db.steps])
  | some entry =>
    if now < entry.2 then some (db, [db.call (.reclaim now) none db.steps])
    else if db.rowLocked then none
    else some (db.setRow none, [db.call (.reclaim now) none db.steps])

/-- The transaction that has the lock commits. -/
def Db.commit (db : Db ι S R) (t : Txn S R) :
    Option (Db ι S R × List (Finished S R)) :=
  (t.commit db.row).map fun r =>
    ((db.setRow r.1).release,
      [db.call (.apply t.request.transform t.request.now) (some r.2) t.request.invoked])

/-- One action, before it is counted. -/
def act [DecidableEq ι] (db : Db ι S R) :
    Act ι S R → Option (Db ι S R × List (Finished S R))
  | .start client transform now =>
    if (db.waiting client).isSome then none
    else some ({ db with
      waiting := Function.update db.waiting client (some ⟨transform, now, db.steps⟩) }, [])
  | .fail client => some ({ db with waiting := Function.update db.waiting client none }, [])
  | .lock client =>
    if db.lock.isSome then none
    else (db.waiting client).map fun r =>
      ({ db with
        waiting := Function.update db.waiting client none
        lock := some ⟨r, .locked⟩ }, [])
  | .select => db.lock.bind fun t =>
    match t.stage with
    | .locked =>
      some (db.proceed { t with stage := .selected (visible db.row t.request.now) }, [])
    | _ => none
  | .upsert => db.lock.bind fun t => (t.upsert db.row).map fun t' => (db.proceed t', [])
  | .commit => db.lock.bind fun t => db.commit t
  | .rollback => if db.lock.isSome then some (db.release, []) else none
  | .reset => db.reset
  | .sweep now => db.sweep now

/-- Any number of clients on one key. -/
def step [DecidableEq ι] : Machine (Db ι S R) (Act ι S R) (Finished S R) := fun db a =>
  (act db a).map fun r => (r.1.tick, r.2)

/-- No call is under way. -/
def start (row : Cell S) : Db ι S R := ⟨row, none, fun _ => none, 0⟩

/-! ### The condition -/

/-- The expiry of what a transaction writes over a state it has read. -/
def Txn.overwrites (t : Txn S R) : Option ℤ :=
  match t.stage with
  | .locked => none
  | .selected seen | .upserted seen _ _ =>
    if seen.isSome && (t.request.transform seen).persist then some (t.request.expiry seen) else none

/-- The same of the transaction that has the lock. -/
def Db.overwrites (db : Db ι S R) : Option ℤ := db.lock.bind Txn.overwrites

/-- **The condition.** While a transaction is writing over a state it has read, there is no reset,
and a sweep leaves the row in place or would leave what is written. -/
def Undisturbed (db : Db ι S R) : Act ι S R → Prop
  | .reset => db.overwrites = none
  | .sweep now =>
    match db.overwrites with
    | none => True
    | some expiry => (visible db.row now).isSome = true ∨ now < expiry
  | _ => True

instance (db : Db ι S R) : ∀ a, Decidable (Undisturbed db a)
  | .reset => inferInstanceAs (Decidable (db.overwrites = none))
  | .sweep now =>
    match h : db.overwrites with
    | none => isTrue (by simp [Undisturbed, h])
    | some expiry =>
      decidable_of_iff ((visible db.row now).isSome = true ∨ now < expiry)
        (by simp [Undisturbed, h])
  | .start _ _ _ | .fail _ | .lock _ | .select | .upsert | .commit | .rollback => isTrue trivial

/-! ### The invariant -/

/-- What a transaction has read, if it has. -/
def Stage.read : Stage S → Option (Option S)
  | .locked => none
  | .selected seen | .upserted seen _ _ => some seen

/-- Where a transaction that has read `seen` belongs: after `front`, and before `back`, the calls
since the row that it read was deleted. -/
structure Placed (row₀ row : Cell S) (r : Request S R) (seen : Option S)
    (front back : List (Finished S R)) : Prop where
  found : visible (stateAfter service row₀ front) r.now = seen
  later : ∀ d ∈ back, ¬ d.completed < r.invoked
  gone : back ≠ [] → row = none
  absent : seen = none → visible row r.now = none
  /-- The calls after it leave what it writes. -/
  harmless : seen.isSome = true → (r.transform seen).persist = true →
    ∀ d ∈ back, d.answer = none ∧ ∃ n < r.expiry seen, d.request = .reclaim n

/-- What is known of the transaction that has the lock. -/
structure Txn.Sound (row₀ row : Cell S) (steps : ℕ) (order : List (Finished S R))
    (t : Txn S R) : Prop where
  invoked_le : t.request.invoked ≤ steps
  placed : ∀ seen, t.stage.read = some seen →
    ∃ front back, order = front ++ back ∧ Placed row₀ row t.request seen front back
  written : ∀ seen state updates, t.stage = .upserted seen state updates →
    (t.request.transform seen).persist = true ∧
      (t.request.transform seen).state = some state.1 ∧ state.2 = t.request.expiry seen

/-- An order of the completed calls that explains the committed row, and what is under way. -/
structure Explains (row₀ : Cell S) (db : Db ι S R) (log order : List (Finished S R)) :
    Prop where
  linear : Linearizes service row₀ log order db.row
  invoked_le : ∀ d ∈ order, d.invoked ≤ db.steps
  waiting : ∀ client r, db.waiting client = some r → r.invoked ≤ db.steps
  txn : ∀ t, db.lock = some t → t.Sound row₀ db.row db.steps order

theorem Explains.start (row₀ : Cell S) : Explains row₀ (start row₀ : Db ι S R) [] [] where
  linear := .nil row₀
  invoked_le := by rintro d ⟨⟩
  waiting := by rintro client r ⟨⟩
  txn := by rintro t ⟨⟩

section Preservation

variable {row₀ : Cell S} {db : Db ι S R} {log order : List (Finished S R)}
  {t : Txn S R}

theorem Explains.tick (h : Explains row₀ db log order) : Explains row₀ db.tick log order where
  linear := h.linear
  invoked_le d hd := (h.invoked_le d hd).trans (Nat.le_succ _)
  waiting client r hr := (h.waiting client r hr).trans (Nat.le_succ _)
  txn t ht := ⟨(h.txn t ht).invoked_le.trans (Nat.le_succ _), (h.txn t ht).placed,
    (h.txn t ht).written⟩

/-- Nothing follows a call that ends now. -/
theorem Explains.not_completed_lt (h : Explains row₀ db log order) (op : Op S R)
    (answer : Option R) (invoked : ℕ) :
    ∀ d ∈ order, ¬ (db.call op answer invoked).completed < d.invoked := by
  intro d hd
  exact not_lt.mpr (h.invoked_le d hd)

/-- The transaction moves on, or is gone. -/
theorem Explains.setLock (h : Explains row₀ db log order) {lock : Option (Txn S R)}
    (hlock : ∀ t, lock = some t → t.Sound row₀ db.row db.steps order) :
    Explains row₀ { db with lock } log order where
  linear := h.linear
  invoked_le := h.invoked_le
  waiting := h.waiting
  txn := hlock

theorem Explains.setWaiting [DecidableEq ι] (h : Explains row₀ db log order) (client : ι)
    {o : Option (Request S R)} (ho : ∀ r, o = some r → r.invoked ≤ db.steps) :
    Explains row₀ { db with waiting := Function.update db.waiting client o } log order where
  linear := h.linear
  invoked_le := h.invoked_le
  waiting client' r hr := by
    have hr' : Function.update db.waiting client o client' = some r := hr
    rw [Function.update_apply] at hr'
    split at hr'
    · exact ho r hr'
    · exact h.waiting client' r hr'
  txn := h.txn

theorem Txn.overwrites_eq {seen : Option S} (hread : t.stage.read = some seen) :
    t.overwrites = if seen.isSome && (t.request.transform seen).persist
      then some (t.request.expiry seen) else none := by
  obtain ⟨r, stage⟩ := t
  cases stage with
  | locked => cases hread
  | selected seen' =>
    obtain rfl := Option.some.inj hread
    rfl
  | upserted seen' written updates =>
    obtain rfl := Option.some.inj hread
    rfl

theorem overwrites_of_read (hlock : db.lock = some t) {seen : Option S}
    (hread : t.stage.read = some seen) (hsome : seen.isSome = true)
    (hpersist : (t.request.transform seen).persist = true) :
    db.overwrites = some (t.request.expiry seen) := by
  rw [Db.overwrites, hlock, Option.bind_some, Txn.overwrites_eq hread,
    if_pos (by rw [hsome, hpersist]; rfl)]

/-- A call that comes last and leaves the row as it is, with one there. -/
theorem Explains.idle (h : Explains row₀ db log order) {op : Op S R} {entry : S × ℤ}
    (hrow : db.row = some entry) (hop : service db.row op = (db.row, none)) :
    Explains row₀ db (log ++ [db.call op none db.steps])
      (order ++ [db.call op none db.steps]) where
  linear := by
    have hlin := h.linear.concat (c := db.call op none db.steps) (by rw [Db.call, hop])
      (h.not_completed_lt op none db.steps)
    rwa [Db.call, hop] at hlin
  invoked_le d hd := by
    rcases List.mem_append.mp hd with hold | hnew
    · exact h.invoked_le d hold
    · obtain rfl := List.mem_singleton.mp hnew
      exact le_rfl
  waiting := h.waiting
  txn t ht := by
    refine ⟨(h.txn t ht).invoked_le, fun seen hread => ?_, (h.txn t ht).written⟩
    obtain ⟨front, back, rfl, hplaced⟩ := (h.txn t ht).placed seen hread
    have hback : back = [] := by
      by_contra hne
      rw [hplaced.gone hne] at hrow
      cases hrow
    subst hback
    rw [List.append_nil]
    have hstate : stateAfter service row₀ front = db.row := by
      have hlin := h.linear.state
      rwa [List.append_nil] at hlin
    refine ⟨front ++ [db.call op none db.steps], [], (List.append_nil _).symm, ?_, ?_, ?_,
      hplaced.absent, ?_⟩
    · have hkeep : stateAfter service row₀ (front ++ [db.call op none db.steps])
          = stateAfter service row₀ front := by
        rw [stateAfter_concat, hstate]
        show (service db.row op).1 = db.row
        rw [hop]
      rw [hkeep]
      exact hplaced.found
    · rintro d ⟨⟩
    · intro hne
      exact absurd rfl hne
    · rintro - - d ⟨⟩

/-- A call that comes last and leaves no row. -/
theorem Explains.deletes (h : Explains row₀ db log order) {op : Op S R}
    (hop : service db.row op = (none, none))
    (hsafe : ∀ expiry, db.overwrites = some expiry → ∃ n < expiry, op = .reclaim n) :
    Explains row₀ (db.setRow none) (log ++ [db.call op none db.steps])
      (order ++ [db.call op none db.steps]) where
  linear := by
    have hlin := h.linear.concat (c := db.call op none db.steps) (by rw [Db.call, hop])
      (h.not_completed_lt op none db.steps)
    rwa [Db.call, hop] at hlin
  invoked_le d hd := by
    rcases List.mem_append.mp hd with hold | hnew
    · exact h.invoked_le d hold
    · obtain rfl := List.mem_singleton.mp hnew
      exact le_rfl
  waiting := h.waiting
  txn t ht := by
    refine ⟨(h.txn t ht).invoked_le, fun seen hread => ?_, (h.txn t ht).written⟩
    obtain ⟨front, back, rfl, hplaced⟩ := (h.txn t ht).placed seen hread
    refine ⟨front, back ++ [db.call op none db.steps], List.append_assoc .., hplaced.found, ?_,
      fun _ => rfl, fun _ => rfl, ?_⟩
    · intro d hd
      rcases List.mem_append.mp hd with hold | hnew
      · exact hplaced.later d hold
      · obtain rfl := List.mem_singleton.mp hnew
        exact not_lt.mpr (h.txn t ht).invoked_le
    · intro hsome hpersist d hd
      rcases List.mem_append.mp hd with hold | hnew
      · exact hplaced.harmless hsome hpersist d hold
      · obtain rfl := List.mem_singleton.mp hnew
        exact ⟨rfl, hsafe _ (overwrites_of_read ht hread hsome hpersist)⟩

/-- A transaction commits. -/
theorem Explains.commit (h : Explains row₀ db log order) (hlock : db.lock = some t)
    {r : Cell S × R} (hcommit : t.commit db.row = some r) :
    ∃ order', Explains row₀ (db.setRow r.1).release
      (log ++ [db.call (.apply t.request.transform t.request.now) (some r.2) t.request.invoked])
      order' := by
  obtain ⟨hinvoked, hplaced, hwritten⟩ := h.txn t hlock
  generalize hc : db.call (.apply t.request.transform t.request.now) (some r.2) t.request.invoked
    = c
  have hrequest : c.request = .apply t.request.transform t.request.now := by rw [← hc]; rfl
  have hanswer : c.answer = some r.2 := by rw [← hc]; rfl
  have hafter : ∀ d ∈ order, ¬ c.completed < d.invoked := by
    rw [← hc]
    exact h.not_completed_lt _ _ _
  have hfinish : ∀ {order'}, order'.Perm (c :: order) →
      Linearizes service row₀ (log ++ [c]) order' r.1 →
      ∃ order', Explains row₀ (db.setRow r.1).release (log ++ [c]) order' := by
    intro order' hperm hlinear
    refine ⟨order', hlinear, fun d hd => ?_, h.waiting, by rintro t ⟨⟩⟩
    rcases List.mem_cons.mp (hperm.mem_iff.mp hd) with rfl | hold
    · rw [← hc]
      exact hinvoked
    · exact h.invoked_le d hold
  obtain ⟨req, stage⟩ := t
  cases stage with
  | locked => cases hcommit
  | selected seen =>
    -- it writes nothing, so it takes effect where it has read
    rw [Txn.commit] at hcommit
    dsimp only at hcommit
    split at hcommit
    · cases hcommit
    rename_i hpersist
    obtain rfl := Option.some.inj hcommit
    obtain ⟨front, back, rfl, hfound, hlater, -, -, -⟩ := hplaced seen rfl
    refine hfinish List.perm_middle ?_
    refine h.linear.insert_idle rfl ?_ (fun d hd => hafter d (List.mem_append_left _ hd)) ?_
    · rw [hrequest, hanswer, service_apply_of_not_persist (by simpa [hfound] using hpersist),
        hfound]
    · rw [← hc]
      exact hlater
  | upserted seen written updates =>
    obtain rfl := Option.some.inj hcommit
    obtain ⟨hpersist, hstate, hexpiry⟩ := hwritten seen written updates rfl
    obtain ⟨front, back, rfl, hfound, hlater, -, habsent, hharmless⟩ := hplaced seen rfl
    have hservice : ∀ u : Cell S, visible u req.now = seen →
        service u (.apply req.transform req.now)
          = (some written, some (req.transform seen).result) := by
      rintro u rfl
      rw [service_apply_of_persist hpersist hstate, ← Request.expiry, ← hexpiry]
    cases hseen : seen with
    | none =>
      -- it has read no state, and still would
      refine hfinish (List.perm_append_singleton c _) ?_
      have hlast := hservice db.row ((habsent hseen).trans hseen.symm)
      have hlin := h.linear.concat (c := c) (by rw [hrequest, hlast, hanswer, hseen]) hafter
      rwa [hrequest, hlast] at hlin
    | some state =>
      -- it comes before what has happened since the row that it read was deleted
      refine hfinish List.perm_middle ?_
      have hfront := hservice _ hfound
      have hlin := h.linear.insert (c := c) rfl (by rw [hrequest, hfront, hanswer, hseen])
        (fun d hd => ?_) (fun d hd => hafter d (List.mem_append_left _ hd))
        (by rw [← hc]; exact hlater)
      · rwa [hrequest, hfront] at hlin
      · obtain ⟨hanswer', n, hn, hreclaim⟩ := hharmless (by rw [hseen]; rfl) hpersist d hd
        rw [hrequest, hfront, hreclaim, hanswer']
        exact service_reclaim_of_lt (by rw [hexpiry]; exact hn)

/-! ### What each action keeps -/

/-- A transaction that has read nothing yet. -/
theorem sound_locked {r : Request S R} {row : Cell S} {steps : ℕ} (h : r.invoked ≤ steps) :
    (Txn.mk r .locked).Sound row₀ row steps order :=
  ⟨h, by rintro seen ⟨⟩, by rintro seen state updates ⟨⟩⟩

theorem Explains.start_call [DecidableEq ι] (h : Explains row₀ db log order) (client : ι)
    (transform : Option S → ApplyOutcome S R) (now : ℤ) :
    Explains row₀ { db with
      waiting := Function.update db.waiting client (some ⟨transform, now, db.steps⟩) }
      log order := by
  refine h.setWaiting client fun r hr => ?_
  rw [← Option.some.inj hr]

theorem Explains.lock [DecidableEq ι] (h : Explains row₀ db log order) {client : ι}
    {r : Request S R} (hr : db.waiting client = some r) :
    Explains row₀ { db with
      waiting := Function.update db.waiting client none
      lock := some ⟨r, .locked⟩ } log order := by
  have hwait : Explains row₀
      { db with waiting := Function.update db.waiting client none } log order :=
    h.setWaiting client (by rintro r ⟨⟩)
  refine hwait.setLock fun t ht => ?_
  rw [← Option.some.inj ht]
  exact sound_locked (h.waiting client r hr)

/-- The read: the transaction belongs after all that has been completed. -/
theorem Explains.select (h : Explains row₀ db log order) {r : Request S R}
    (hlock : db.lock = some ⟨r, .locked⟩) :
    Explains row₀ (db.proceed ⟨r, .selected (visible db.row r.now)⟩) log order := by
  refine h.setLock fun t ht => ?_
  rw [← Option.some.inj ht]
  refine ⟨(h.txn _ hlock).invoked_le, fun seen hread => ?_, by rintro seen state updates ⟨⟩⟩
  obtain rfl := Option.some.inj hread
  refine ⟨order, [], (List.append_nil _).symm, ?_, ?_, ?_, id, ?_⟩
  · rw [h.linear.state]
  · rintro d ⟨⟩
  · intro hne
    exact absurd rfl hne
  · rintro - - d ⟨⟩

theorem Explains.upsert (h : Explains row₀ db log order) (hlock : db.lock = some t)
    {t' : Txn S R} (hupsert : t.upsert db.row = some t') :
    Explains row₀ (db.proceed t') log order := by
  refine h.setLock fun t'' ht => ?_
  rw [← Option.some.inj ht]
  obtain ⟨hinvoked, hplaced, -⟩ := h.txn t hlock
  obtain ⟨r, stage⟩ := t
  cases stage with
  | locked => cases hupsert
  | upserted seen written updates => cases hupsert
  | selected seen =>
    rw [Txn.upsert] at hupsert
    dsimp only at hupsert
    split at hupsert
    · rename_i hpersist
      obtain ⟨state, hstate, rfl⟩ := Option.map_eq_some_iff.mp hupsert
      refine ⟨hinvoked, fun seen' hread => hplaced seen' hread, fun seen' written updates heq => ?_⟩
      obtain ⟨rfl, rfl, -⟩ := Stage.upserted.inj heq
      exact ⟨hpersist, hstate, rfl⟩
    · cases hupsert

theorem Explains.reset (h : Explains row₀ db log order) (hok : db.overwrites = none)
    {db' : Db ι S R} {new : List (Finished S R)} (hstep : db.reset = some (db', new)) :
    ∃ order', Explains row₀ db' (log ++ new) order' := by
  rw [Db.reset] at hstep
  split at hstep
  · cases hstep
  · cases hstep
    refine ⟨_, h.deletes (service_reset _) fun expiry hsome => ?_⟩
    rw [hok] at hsome
    cases hsome

theorem Explains.sweep (h : Explains row₀ db log order) {now : ℤ}
    (hok : Undisturbed db (.sweep now))
    {db' : Db ι S R} {new : List (Finished S R)}
    (hstep : db.sweep now = some (db', new)) :
    ∃ order', Explains row₀ db' (log ++ new) order' := by
  have hsafe : visible db.row now = none → ∀ expiry, db.overwrites = some expiry →
      ∃ n < expiry, (.reclaim now : Op S R) = .reclaim n := by
    intro hgone expiry hover
    rw [Undisturbed, hover] at hok
    rcases hok with hvisible | hlt
    · rw [hgone] at hvisible
      cases hvisible
    · exact ⟨now, hlt, rfl⟩
  obtain ⟨row, lock, waiting, steps⟩ := db
  cases row with
  | none =>
    cases hstep
    exact ⟨_, h.deletes (service_reclaim_none now) (hsafe rfl)⟩
  | some entry =>
    rw [Db.sweep] at hstep
    dsimp only at hstep
    split at hstep
    · rename_i hlt
      cases hstep
      exact ⟨_, h.idle rfl (service_reclaim_of_lt hlt)⟩
    · rename_i hle
      split at hstep
      · cases hstep
      · cases hstep
        refine ⟨_, h.deletes (service_reclaim_of_le (not_lt.mp hle)) (hsafe ?_)⟩
        rw [visible_some, if_neg hle]

/-- **An undisturbed action keeps the explanation.** -/
theorem Explains.act [DecidableEq ι] (h : Explains row₀ db log order) {a : Act ι S R}
    (hok : Undisturbed db a) {db' : Db ι S R} {new : List (Finished S R)}
    (hact : act db a = some (db', new)) : ∃ order', Explains row₀ db' (log ++ new) order' := by
  cases a with
  | start client transform now =>
    rw [PostgresStore.act] at hact
    split at hact
    · cases hact
    · cases hact
      rw [List.append_nil]
      exact ⟨order, h.start_call client transform now⟩
  | fail client =>
    cases hact
    rw [List.append_nil]
    exact ⟨order, h.setWaiting client (by rintro r ⟨⟩)⟩
  | lock client =>
    rw [PostgresStore.act] at hact
    split at hact
    · cases hact
    · obtain ⟨r, hr, heq⟩ := Option.map_eq_some_iff.mp hact
      cases heq
      rw [List.append_nil]
      exact ⟨order, h.lock hr⟩
  | select =>
    obtain ⟨⟨r, stage⟩, hlock, hsel⟩ := Option.bind_eq_some_iff.mp hact
    cases stage with
    | locked =>
      cases hsel
      rw [List.append_nil]
      exact ⟨order, h.select hlock⟩
    | selected seen => cases hsel
    | upserted seen written updates => cases hsel
  | upsert =>
    obtain ⟨t, hlock, hmap⟩ := Option.bind_eq_some_iff.mp hact
    obtain ⟨t', hupsert, heq⟩ := Option.map_eq_some_iff.mp hmap
    cases heq
    rw [List.append_nil]
    exact ⟨order, h.upsert hlock hupsert⟩
  | commit =>
    obtain ⟨t, hlock, hmap⟩ := Option.bind_eq_some_iff.mp hact
    obtain ⟨r, hcommit, heq⟩ := Option.map_eq_some_iff.mp hmap
    cases heq
    exact h.commit hlock hcommit
  | rollback =>
    rw [PostgresStore.act] at hact
    split at hact
    · cases hact
      rw [List.append_nil]
      exact ⟨order, h.setLock (by rintro t ⟨⟩)⟩
    · cases hact
  | reset => exact h.reset hok hact
  | sweep now => exact h.sweep hok hact

/-- The same of a step of a run. -/
theorem Explains.step [DecidableEq ι] (h : Explains row₀ db log order) {a : Act ι S R}
    (hok : Undisturbed db a) {db' : Db ι S R} {new : List (Finished S R)}
    (hstep : step db a = some (db', new)) : ∃ order', Explains row₀ db' (log ++ new) order' := by
  obtain ⟨⟨db'', new'⟩, hact, heq⟩ := Option.map_eq_some_iff.mp hstep
  cases heq
  obtain ⟨order', h'⟩ := h.act hok hact
  exact ⟨order', h'.tick⟩

end Preservation

/-- **The store is linearizable.** In a run in which no reset, and no sweep that would remove what
is written too, comes between the read and the end of a transaction that writes over a state it has
read, the calls that are over have an order that agrees with real time and gives each its result,
and the row is what they leave in that order. -/
theorem apply_linearizable [DecidableEq ι] {row₀ : Cell S}
    {log : List (Finished S R)} {db : Db ι S R}
    (h : (step (ι := ι) (S := S) (R := R)).Run Undisturbed (start row₀) log db) :
    ∃ order, Linearizes service row₀ log order db.row := by
  obtain ⟨order, hexplains⟩ : ∃ order, Explains row₀ db log order := by
    refine Machine.Run.invariant (I := fun db log => ∃ order, Explains row₀ db log order)
      ⟨[], .start row₀⟩ ?_ h
    rintro db log a db' new ⟨order, hexplains⟩ hok hstep
    exact hexplains.step hok hstep
  exact ⟨order, hexplains.linear⟩

/-- A counter that adds `n`, kept for a second. -/
def add (n : ℕ) : Option ℕ → ApplyOutcome ℕ ℕ := fun state =>
  ⟨some (state.getD 0 + n), state.getD 0 + n, 1000, true⟩

/-- Two clients. One has read the row when the other's sweep removes it, and writes over the gap;
the other reads what it has written. The key is reset while a third call waits for the lock. -/
def interleaved : List (Act Bool ℕ ℕ) :=
  [.start false (add 1) 10, .lock false, .select, .sweep 60, .start true (add 2) 60, .upsert,
    .commit, .lock true, .select, .upsert, .start false (add 4) 61, .commit, .reset, .lock false,
    .select, .upsert, .commit]

theorem interleaved_linearizable :
    ∃ order, Linearizes (service (S := ℕ) (R := ℕ)) (some (5, 50))
      (((step (ι := Bool)).exec (start (some (5, 50))) interleaved).get (by decide +kernel)).2 order
      (((step (ι := Bool)).exec (start (some (5, 50))) interleaved).get
        (by decide +kernel)).1.row := by
  have hrun := Machine.run_of_isSome (m := step (ι := Bool)) (p := Undisturbed)
    (s := start (some (5, 50))) (l := interleaved) (by decide +kernel) (by decide +kernel)
  exact apply_linearizable hrun

/-- A reset between the read and the write of a transaction. -/
def overtaken : List (Act Bool ℕ ℕ) :=
  [.start false (add 1) 10, .lock false, .select, .reset, .upsert, .commit]

/-- After the reset the key still counts what the transaction read before it, and no order of the
two calls explains that. -/
theorem reset_loses_to_apply :
    (((step (ι := Bool)).exec (start (some (5, 50))) overtaken).get (by decide +kernel)).1.row
        = some (6, 1010) ∧
      ¬ ∃ order, Linearizes (service (S := ℕ) (R := ℕ)) (some (5, 50))
        (((step (ι := Bool)).exec (start (some (5, 50))) overtaken).get (by decide +kernel)).2 order
        (((step (ι := Bool)).exec (start (some (5, 50))) overtaken).get
          (by decide +kernel)).1.row := by
  refine ⟨by decide +kernel, ?_⟩
  rintro ⟨order, h⟩
  have hmem := List.mem_permutations'.mpr h.perm
  have hstate : ∀ order' ∈ (((step (ι := Bool)).exec (start (some (5, 50))) overtaken).get
      (by decide +kernel)).2.permutations', stateAfter service (some (5, 50)) order'
        ≠ (((step (ι := Bool)).exec (start (some (5, 50))) overtaken).get
          (by decide +kernel)).1.row := by decide +kernel
  exact hstate order hmem h.state

end ThrottleKit.PostgresStore
