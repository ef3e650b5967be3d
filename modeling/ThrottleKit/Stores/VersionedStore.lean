import Mathlib.Tactic.Linarith
import ThrottleKit.Lib.Machine
import ThrottleKit.Stores.SequentialKey

/-!
# The stores with optimistic concurrency

`D1Store` and `DynamoStore` build `apply` from a read and a conditional write: the write goes
through when the row still has the version that was read, or when there is still no row. Calls of
one process on a key wait for one another, so a process has one attempt under way; `reset` and the
removal of expired rows, by a sweep or by the table itself, wait for nothing.

A row is created with version 0 and every write adds one, but a deletion takes the version with it.
An attempt that read a row before a deletion may therefore find its version again on a row that was
created since, and write over a state it never read. `NotRecreated` says that no attempt does.

## Main definitions

* `Table` — what the two stores make of a row, with `D1.table` and `Dynamo.table`
* `Flight`, `Act`, `step`, `machine` — the attempts of any number of processes
* `NotRecreated` — a write finds its version on the row that was read only

## Main results

* `step_spec` — a step takes effect as one operation of the key, or not at all
* `applyCas_linearizable` — a run whose writes meet `NotRecreated` is legal
* `recreated_row_loses_update` — without it one is not
-/

namespace ThrottleKit.VersionedStore

open SequentialKey Lockstep Linearization

variable {Row S R ι : Type}

/-- How a store keeps the state of a key in a row of its table. -/
structure Table (Row S : Type) where
  /-- The name of the store in its errors. -/
  name : String
  state : Row → S
  /-- The deadline a read enforces. -/
  liveUntil : Row → ℤ
  version : Row → ℕ
  /-- The row that holds a state until a deadline, under a version. -/
  put : S → ℤ → ℕ → Row
  /-- Whether a reclaim at an instant deletes the row. -/
  due : Row → ℤ → Bool
  state_put : ∀ s t v, state (put s t v) = s
  liveUntil_put : ∀ s t v, liveUntil (put s t v) = t
  version_put : ∀ s t v, version (put s t v) = v
  liveUntil_le_of_due : ∀ row t, due row t = true → liveUntil row ≤ t

namespace D1

/-- A row of the `throttlekit` table, for one key. -/
structure StoredRow (S : Type) where
  state : S
  expiresAt : ℤ
  version : ℕ

/-- `D1Store`; its `sweep` is the reclaim. -/
def table (S : Type) : Table (StoredRow S) S where
  name := "D1Store"
  state := StoredRow.state
  liveUntil := StoredRow.expiresAt
  version := StoredRow.version
  put := StoredRow.mk
  due := fun row now => row.expiresAt ≤ now
  state_put := fun _ _ _ => rfl
  liveUntil_put := fun _ _ _ => rfl
  version_put := fun _ _ _ => rfl
  liveUntil_le_of_due := fun _ _ h => by simpa using h

end D1

namespace Dynamo

/-- An item of the table, for one key. Items written before `expires_at_ms` was lack it. -/
structure Item (S : Type) where
  state : S
  /-- In epoch seconds, for the TTL of the table. -/
  expiresAt : ℤ
  expiresAtMs : Option ℤ
  version : ℕ
  /-- The table does not consider an item expired before a read does. -/
  covers : ∀ ms ∈ expiresAtMs, ms ≤ expiresAt * 1000

/-- `Math.ceil(liveUntilMs / 1000)`. -/
def expiresAtSec (liveUntilMs : ℤ) : ℤ := ⌈(liveUntilMs : ℚ) / 1000⌉

theorem le_expiresAtSec (liveUntilMs : ℤ) : liveUntilMs ≤ expiresAtSec liveUntilMs * 1000 := by
  have h : (liveUntilMs : ℚ) / 1000 ≤ expiresAtSec liveUntilMs := Int.le_ceil _
  have h' : (liveUntilMs : ℚ) ≤ expiresAtSec liveUntilMs * 1000 := by linarith
  exact_mod_cast h'

/-- `liveUntilMs` of an item that was read. -/
def liveUntilMs (item : Item S) : ℤ := item.expiresAtMs.getD (item.expiresAt * 1000)

/-- The item of a `PutItem`. -/
def putItem (state : S) (liveUntilMs : ℤ) (version : ℕ) : Item S where
  state := state
  expiresAt := expiresAtSec liveUntilMs
  expiresAtMs := some liveUntilMs
  version := version
  covers := fun ms h => by
    obtain rfl := Option.mem_some_iff.mp h
    exact le_expiresAtSec _

theorem liveUntilMs_le (item : Item S) : liveUntilMs item ≤ item.expiresAt * 1000 := by
  rw [liveUntilMs]
  cases h : item.expiresAtMs with
  | none => exact le_rfl
  | some ms => exact item.covers ms h

/-- `DynamoStore`; the TTL of the table is the reclaim. -/
def table (S : Type) : Table (Item S) S where
  name := "DynamoStore"
  state := Item.state
  liveUntil := liveUntilMs
  version := Item.version
  put := putItem
  due := fun item now => item.expiresAt * 1000 ≤ now
  state_put := fun _ _ _ => rfl
  liveUntil_put := fun _ _ _ => rfl
  version_put := fun _ _ _ => rfl
  liveUntil_le_of_due := fun item now h => (liveUntilMs_le item).trans (by simpa using h)

end Dynamo

/-- The key in the table. -/
structure Db (Row : Type) where
  row : Option Row
  /-- How often a row of the key was deleted: what happened, not what the table keeps. -/
  deletions : ℕ

/-- Delete the row, if there is one. -/
def Db.delete (db : Db Row) : Db Row :=
  match db.row with
  | some _ => ⟨none, db.deletions + 1⟩
  | none => db

/-- The state and the deadline of a row. -/
def Table.cell (T : Table Row S) (row : Option Row) : Cell S :=
  row.map fun r => (T.state r, T.liveUntil r)

/-- An attempt that is about to write. -/
structure Pending (S R : Type) where
  transform : Option S → ApplyOutcome S R
  attempt : ℤ
  now : ℤ
  /-- The `state` the transform was given. -/
  seen : Option S
  /-- The version of the row that was read. -/
  version : Option ℕ
  /-- The deletions of the key before the read. -/
  deletions : ℕ
  encoded : S
  persists : (transform seen).persist = true
  encodes : (transform seen).state = some encoded

/-- Where the call of a process on the key is. -/
inductive Flight (S R : Type)
  | idle
  /-- It has read the clock. -/
  | reading (transform : Option S → ApplyOutcome S R) (attempt now : ℤ)
  /-- It has read the row and run the transform. -/
  | writing (p : Pending S R)

/-- What may happen next. -/
inductive Act (S R : Type)
  /-- A call of `apply` reads the clock for its first attempt. -/
  | start (transform : Option S → ApplyOutcome S R) (now : ℤ)
  /-- The attempt reads the row and runs the transform. -/
  | select
  /-- The conditional write. A call that has to try again reads the clock at `again`. -/
  | write (again : ℤ)
  | reset
  /-- A sweep at the reading `now`, or the TTL of the table. -/
  | reclaim (now : ℤ)

/-- What comes of a step. -/
inductive Event (S R : Type)
  /-- An operation takes effect, with its answer. -/
  | committed (op : Op S R) (answer : Option R)
  /-- `StoreUnavailableError`. -/
  | unavailable (message : String)
  /-- There is no JSON text for an undefined state, so the write is refused. -/
  | rejected

/-- The message of the error once the attempts are used up. -/
def exhausted (T : Table Row S) (maxRetries : ℤ) : String :=
  T.name ++ ": optimistic concurrency exhausted " ++ toString maxRetries ++ " retries"

/-- The head of the loop, `attempt <= maxRetries`. -/
def enter (T : Table Row S) (maxRetries : ℤ) (transform : Option S → ApplyOutcome S R)
    (attempt now : ℤ) : Flight S R × List (Event S R) :=
  if attempt ≤ maxRetries then (.reading transform attempt now, [])
  else (.idle, [.unavailable (exhausted T maxRetries)])

/-- The read of an attempt, the transform, and what follows from its outcome. -/
def select (T : Table Row S) (db : Db Row) (transform : Option S → ApplyOutcome S R)
    (attempt now : ℤ) : Flight S R × List (Event S R) :=
  let seen := visible (T.cell db.row) now
  if hpersist : (transform seen).persist = true then
    match hstate : (transform seen).state with
    | none => (.idle, [.rejected])
    | some encoded =>
      (.writing ⟨transform, attempt, now, seen, db.row.map T.version, db.deletions, encoded,
        hpersist, hstate⟩, [])
  else (.idle, [.committed (.apply transform now) (some (transform seen).result)])

/-- The condition of the write: the version that was read, or still no row. -/
def Pending.condition (T : Table Row S) (p : Pending S R) (db : Db Row) : Bool :=
  db.row.map T.version = p.version

/-- The table after the write. -/
def Pending.written (T : Table Row S) (p : Pending S R) (db : Db Row) : Db Row :=
  { db with
    row := some (T.put p.encoded (deadline p.now (p.transform p.seen).ttlMs)
      (match p.version with | some v => v + 1 | none => 0)) }

/-- The conditional write of an attempt; a call that lost the race tries again. -/
def write (T : Table Row S) (maxRetries : ℤ) (db : Db Row) (p : Pending S R) (again : ℤ) :
    Db Row × Flight S R × List (Event S R) :=
  if p.condition T db then
    (p.written T db, .idle,
      [.committed (.apply p.transform p.now) (some (p.transform p.seen).result)])
  else (db, enter T maxRetries p.transform (p.attempt + 1) again)

/-- The removal of the row if it has expired. -/
def reclaim (T : Table Row S) (db : Db Row) (flight : Flight S R) (now : ℤ) :
    Db Row × Flight S R × List (Event S R) :=
  match db.row with
  | some row =>
    if T.due row now then (db.delete, flight, [.committed (.reclaim now) none])
    else (db, flight, [])
  | none => (db, flight, [])

/-- What a process or the table may do. -/
def step (T : Table Row S) (maxRetries : ℤ) (db : Db Row) :
    Flight S R → Act S R → Option (Db Row × Flight S R × List (Event S R))
  | flight, .reset => some (db.delete, flight, [.committed .reset none])
  | flight, .reclaim now => some (reclaim T db flight now)
  | .idle, .start transform now => some (db, enter T maxRetries transform 0 now)
  | .reading transform attempt now, .select => some (db, select T db transform attempt now)
  | .writing p, .write again => some (write T maxRetries db p again)
  | _, _ => none

/-- Any number of processes and one key. -/
def machine [DecidableEq ι] (T : Table Row S) (maxRetries : ℤ) :
    Machine (Parties ι (Db Row) (Flight S R)) (ι × Act S R) (ι × Event S R) :=
  Parties.machine fun _ => step T maxRetries

/-- No call is under way. -/
def start (row : Option Row) : Parties ι (Db Row) (Flight S R) := ⟨⟨row, 0⟩, fun _ => .idle⟩

/-- The operation an event commits. -/
def Event.call : Event S R → Option (Op S R × Option R)
  | .committed op answer => some (op, answer)
  | .unavailable _ => none
  | .rejected => none

/-- The operations that took effect, in order. -/
def commits (log : List (ι × Event S R)) : List (Op S R × Option R) :=
  log.filterMap fun e => e.2.call

/-- The write of `p` does not find its version on a row created since the row it read was
deleted. -/
def Pending.NotRecreated (T : Table Row S) (p : Pending S R) (db : Db Row) : Prop :=
  p.condition T db = true → p.version.isSome = true → p.deletions = db.deletions

instance (T : Table Row S) (p : Pending S R) (db : Db Row) : Decidable (p.NotRecreated T db) :=
  inferInstanceAs (Decidable (_ → _ → _))

/-- A write does not find its version on a row created since the row it read was deleted. -/
def Flight.NotRecreated (T : Table Row S) (db : Db Row) : Flight S R → Act S R → Prop
  | .writing p, .write _ => p.NotRecreated T db
  | _, _ => True

instance (T : Table Row S) (db : Db Row) :
    ∀ (flight : Flight S R) (a : Act S R), Decidable (flight.NotRecreated T db a)
  | .writing p, .write _ => inferInstanceAs (Decidable (p.NotRecreated T db))
  | .writing _, .start .. | .writing _, .select | .writing _, .reset | .writing _, .reclaim _ =>
    isTrue trivial
  | .idle, _ | .reading .., _ => isTrue trivial

/-- No write finds its version on a row created since the row it read was deleted. -/
def NotRecreated (T : Table Row S) (s : Parties ι (Db Row) (Flight S R)) (a : ι × Act S R) : Prop :=
  (s.party a.1).NotRecreated T s.shared a.2

instance (T : Table Row S) (s : Parties ι (Db Row) (Flight S R)) (a : ι × Act S R) :
    Decidable (NotRecreated T s a) := inferInstanceAs (Decidable (Flight.NotRecreated ..))

/-! ### What a step does -/

variable {T : Table Row S} {db db' : Db Row} {p q : Pending S R} {maxRetries : ℤ}
  {flight flight' : Flight S R} {a : Act S R} {new : List (Event S R)}

@[simp] theorem cell_none : T.cell none = none := rfl

@[simp] theorem cell_delete (db : Db Row) : T.cell db.delete.row = none := by
  rw [Db.delete]
  split
  · rfl
  · rename_i h
    rw [h, cell_none]

@[simp] theorem cell_written :
    T.cell (p.written T db).row
      = some (p.encoded, deadline p.now (p.transform p.seen).ttlMs) := by
  simp [Table.cell, Pending.written, T.state_put, T.liveUntil_put]

/-- What is known of an attempt between its read and its write. -/
structure Pending.Fresh (T : Table Row S) (db : Db Row) (p : Pending S R) : Prop where
  absent : p.version = none → p.seen = none
  deletions_le : p.deletions ≤ db.deletions
  /-- While no row was deleted, the version tells whether the row was written. -/
  present : ∀ v, p.version = some v → p.deletions = db.deletions →
    ∃ row, db.row = some row ∧ v ≤ T.version row ∧
      (T.version row = v → p.seen = visible (T.cell db.row) p.now)

/-- The same of a process, wherever its call is. -/
def Flight.Fresh (T : Table Row S) (db : Db Row) : Flight S R → Prop
  | .writing p => p.Fresh T db
  | _ => True

theorem Pending.Fresh.delete (h : p.Fresh T db) : p.Fresh T db.delete := by
  rw [Db.delete]
  split
  · refine ⟨h.absent, h.deletions_le.trans (Nat.le_succ _), fun v _ heq => ?_⟩
    have hle := h.deletions_le
    dsimp only at heq
    omega
  · exact h

/-- A write moves the version on, so an attempt that has yet to write will not find its own. -/
theorem Pending.Fresh.written (hq : q.condition T db = true) (h : p.Fresh T db) :
    p.Fresh T (q.written T db) := by
  refine ⟨h.absent, h.deletions_le, fun v hv heq => ?_⟩
  obtain ⟨row, hrow, hle, -⟩ := h.present v hv heq
  have hversion : some (T.version row) = q.version := by
    simpa [Pending.condition, hrow] using hq
  refine ⟨_, rfl, ?_⟩
  rw [T.version_put, ← hversion]
  dsimp only
  exact ⟨by omega, fun h => by omega⟩

theorem Flight.Fresh.delete (h : flight.Fresh T db) : flight.Fresh T db.delete := by
  cases flight with
  | writing p => exact Pending.Fresh.delete h
  | _ => trivial

theorem Flight.Fresh.written (hq : q.condition T db = true) (h : flight.Fresh T db) :
    flight.Fresh T (q.written T db) := by
  cases flight with
  | writing p => exact Pending.Fresh.written hq h
  | _ => trivial

/-- A write that goes through was computed from the state that is there. -/
theorem Pending.Fresh.seen_eq (h : p.Fresh T db) (hcond : p.condition T db = true)
    (hrec : p.NotRecreated T db) : visible (T.cell db.row) p.now = p.seen := by
  have hversion : db.row.map T.version = p.version := by simpa [Pending.condition] using hcond
  cases hv : p.version with
  | none =>
    rw [hv, Option.map_eq_none_iff] at hversion
    rw [hversion, h.absent hv, cell_none, visible_none]
  | some v =>
    obtain ⟨row, hrow, -, hseen⟩ := h.present v hv (hrec hcond (by rw [hv]; rfl))
    rw [hrow, hv] at hversion
    exact (hseen (Option.some.inj hversion)).symm

/-- The events amount to one operation of the key, or to none. -/
def TakesEffect (T : Table Row S) (db db' : Db Row) (new : List (Event S R)) : Prop :=
  (new.filterMap Event.call = [] ∧ T.cell db'.row = T.cell db.row) ∨
    ∃ op ans, new.filterMap Event.call = [(op, ans)] ∧
      service (T.cell db.row) op = (T.cell db'.row, ans)

/-- What a step from `db` keeps of the attempts, and what it amounts to. -/
structure Sound (T : Table Row S) (db : Db Row) (r : Db Row × Flight S R × List (Event S R)) :
    Prop where
  effect : TakesEffect T db r.1 r.2.2
  own : r.2.1.Fresh T r.1
  others : ∀ other : Flight S R, other.Fresh T db → other.Fresh T r.1

theorem sound_reset (h : flight.Fresh T db) :
    Sound T db (db.delete, flight, [.committed .reset none]) :=
  ⟨.inr ⟨.reset, none, rfl, by simp⟩, h.delete, fun _ ho => ho.delete⟩

theorem sound_reclaim (h : flight.Fresh T db) (now : ℤ) :
    Sound T db (reclaim T db flight now) := by
  rw [reclaim]
  split
  · rename_i row hrow
    split
    · rename_i hdue
      refine ⟨.inr ⟨.reclaim now, none, rfl, ?_⟩, h.delete, fun _ ho => ho.delete⟩
      rw [cell_delete, hrow]
      exact service_reclaim_of_le (T.liveUntil_le_of_due row now hdue)
    · exact ⟨.inl ⟨rfl, rfl⟩, h, fun _ ho => ho⟩
  · exact ⟨.inl ⟨rfl, rfl⟩, h, fun _ ho => ho⟩

theorem sound_enter (transform : Option S → ApplyOutcome S R) (attempt now : ℤ) :
    Sound T db (db, enter T maxRetries transform attempt now) := by
  rw [enter]
  split
  · exact ⟨.inl ⟨rfl, rfl⟩, trivial, fun _ ho => ho⟩
  · exact ⟨.inl ⟨rfl, rfl⟩, trivial, fun _ ho => ho⟩

/-- A read takes effect at once when the transform keeps nothing; otherwise the version that was
read is that of the row. -/
theorem sound_select (transform : Option S → ApplyOutcome S R) (attempt now : ℤ) :
    Sound T db (db, select T db transform attempt now) := by
  rw [select]
  split
  · split
    · exact ⟨.inl ⟨rfl, rfl⟩, trivial, fun _ ho => ho⟩
    · refine ⟨.inl ⟨rfl, rfl⟩, ⟨fun h => ?_, le_rfl, fun v hv _ => ?_⟩, fun _ ho => ho⟩
      · rw [Option.map_eq_none_iff] at h
        change visible (T.cell db.row) now = none
        rw [h, cell_none, visible_none]
      · obtain ⟨row, hrow, rfl⟩ := Option.map_eq_some_iff.mp hv
        exact ⟨row, hrow, le_rfl, fun _ => rfl⟩
  · rename_i hpersist
    exact ⟨.inr ⟨_, _, rfl, service_apply_of_not_persist (by simpa using hpersist)⟩, trivial,
      fun _ ho => ho⟩

theorem sound_write (h : p.Fresh T db) (hrec : p.NotRecreated T db) (again : ℤ) :
    Sound T db (write T maxRetries db p again) := by
  rw [write]
  split
  · rename_i hcond
    refine ⟨.inr ⟨_, _, rfl, ?_⟩, trivial, fun _ ho => ho.written hcond⟩
    have hseen := h.seen_eq hcond hrec
    have hpersist := p.persists
    have hencodes := p.encodes
    rw [← hseen] at hpersist hencodes
    rw [service_apply_of_persist hpersist hencodes, hseen, cell_written]
  · exact sound_enter p.transform (p.attempt + 1) again

/-- **A step takes effect as one operation of the key, or not at all.** -/
theorem step_spec {r : Db Row × Flight S R × List (Event S R)}
    (h : step T maxRetries db flight a = some r) (hfresh : flight.Fresh T db)
    (hok : flight.NotRecreated T db a) : Sound T db r := by
  rw [step.eq_def] at h
  split at h
  · obtain rfl := Option.some.inj h
    exact sound_reset hfresh
  · obtain rfl := Option.some.inj h
    exact sound_reclaim hfresh _
  · obtain rfl := Option.some.inj h
    exact sound_enter _ 0 _
  · obtain rfl := Option.some.inj h
    exact sound_select _ _ _
  · obtain rfl := Option.some.inj h
    exact sound_write hfresh hok _
  · cases h

/-! ### Runs -/

theorem commits_append (l l' : List (ι × Event S R)) :
    commits (l ++ l') = commits l ++ commits l' := List.filterMap_append

theorem commits_map (i : ι) (new : List (Event S R)) :
    commits (new.map fun e => (i, e)) = new.filterMap Event.call := by
  rw [commits, List.filterMap_map]
  rfl

/-- What holds after a run from `row`: the operations that took effect are legal and leave the
table as it is, and every attempt is fresh. -/
structure Linear (T : Table Row S) (row : Option Row) (s : Parties ι (Db Row) (Flight S R))
    (log : List (ι × Event S R)) : Prop where
  legal : Legal service (T.cell row) (commits log)
  state : after service (T.cell row) ((commits log).map Prod.fst) = T.cell s.shared.row
  fresh : ∀ i, (s.party i).Fresh T s.shared

theorem Linear.start (T : Table Row S) (row : Option Row) :
    Linear (ι := ι) (R := R) T row (start row) [] := ⟨rfl, rfl, fun _ => trivial⟩

theorem Linear.step [DecidableEq ι] {row : Option Row} {s s' : Parties ι (Db Row) (Flight S R)}
    {log new : List (ι × Event S R)} {a : ι × Act S R} (h : Linear T row s log)
    (hok : NotRecreated T s a) (hs : machine T maxRetries s a = some (s', new)) :
    Linear T row s' (log ++ new) := by
  obtain ⟨i, act⟩ := a
  obtain ⟨db', flight', l, hstep, rfl, rfl⟩ := Parties.machine_eq_some hs
  have hsound := step_spec hstep (h.fresh i) hok
  have hfresh : ∀ j, (Function.update s.party i flight' j).Fresh T db' := by
    intro j
    by_cases hji : j = i
    · subst hji
      simpa using hsound.own
    · simpa [Function.update_of_ne hji] using hsound.others _ (h.fresh j)
  rcases hsound.effect with ⟨hnone, hcell⟩ | ⟨op, ans, hone, hcall⟩
  · refine ⟨?_, ?_, hfresh⟩
    · simpa [commits_append, commits_map, hnone] using h.legal
    · simpa [commits_append, commits_map, hnone, hcell] using h.state
  · have hcall' : service (after service (T.cell row) ((commits log).map Prod.fst)) op
        = (T.cell db'.row, ans) := by rw [h.state, hcall]
    refine ⟨?_, ?_, hfresh⟩
    · rw [commits_append, commits_map, hone, legal_concat]
      exact ⟨h.legal, by rw [hcall']⟩
    · rw [commits_append, commits_map, hone, List.map_append, after_append]
      exact congrArg Prod.fst hcall'

theorem linear_of_run [DecidableEq ι] {row : Option Row} {s : Parties ι (Db Row) (Flight S R)}
    {log : List (ι × Event S R)}
    (h : (machine T maxRetries).Run (NotRecreated T) (start row) log s) : Linear T row s log :=
  h.invariant (.start T row) fun _ _ _ _ _ hI hok hs => hI.step hok hs

/-- The two stores. -/
inductive Backend
  | d1
  | dynamo

/-- The rows of a store. -/
abbrev Backend.Stored (S : Type) : Backend → Type
  | .d1 => D1.StoredRow S
  | .dynamo => Dynamo.Item S

/-- What a store makes of its rows. -/
def Backend.table (S : Type) : (b : Backend) → Table (b.Stored S) S
  | .d1 => D1.table S
  | .dynamo => Dynamo.table S

/-- **A store with optimistic concurrency is linearizable where no row is recreated under the
version of an attempt.** -/
theorem applyCas_linearizable [DecidableEq ι] (b : Backend) {maxRetries : ℤ}
    {row : Option (b.Stored S)} {s : Parties ι (Db (b.Stored S)) (Flight S R)}
    {log : List (ι × Event S R)}
    (h : (machine (b.table S) maxRetries).Run (NotRecreated (b.table S)) (start row) log s) :
    Legal service ((b.table S).cell row) (commits log) ∧
      after service ((b.table S).cell row) ((commits log).map Prod.fst)
        = (b.table S).cell s.shared.row :=
  ⟨(linear_of_run h).legal, (linear_of_run h).state⟩

/-- A counter that adds `n`, kept for a second. -/
def add (n : ℕ) : Option ℕ → ApplyOutcome ℕ ℕ := fun state =>
  ⟨some (state.getD 0 + n), state.getD 0 + n, 1000, true⟩

/-- Two processes on one key: both read the first row, one write loses and is tried again, the key
is reset, and a row that has expired is removed. -/
def contended : List (Bool × Act ℕ ℕ) :=
  [(false, .start (add 5) 0), (false, .select), (false, .write 0), (false, .start (add 1) 1),
    (true, .start (add 2) 1), (false, .select), (true, .select), (true, .write 1),
    (false, .write 2), (true, .reset), (false, .select), (false, .write 3), (true, .reclaim 2000),
    (true, .start (add 2) 2000), (true, .select), (true, .write 2000)]

theorem contended_linearizable :
    (Legal service ((Backend.d1.table ℕ).cell none)
        (commits (((machine (ι := Bool) (Backend.d1.table ℕ) 16).exec (start none) contended).get
          (by decide +kernel)).2) ∧
      after service ((Backend.d1.table ℕ).cell none)
          ((commits (((machine (ι := Bool) (Backend.d1.table ℕ) 16).exec (start none)
            contended).get (by decide +kernel)).2).map Prod.fst)
        = (Backend.d1.table ℕ).cell (((machine (ι := Bool) (Backend.d1.table ℕ) 16).exec
            (start none) contended).get (by decide +kernel)).1.shared.row) ∧
    (Legal service ((Backend.dynamo.table ℕ).cell none)
        (commits (((machine (ι := Bool) (Backend.dynamo.table ℕ) 16).exec (start none)
          contended).get (by decide +kernel)).2) ∧
      after service ((Backend.dynamo.table ℕ).cell none)
          ((commits (((machine (ι := Bool) (Backend.dynamo.table ℕ) 16).exec (start none)
            contended).get (by decide +kernel)).2).map Prod.fst)
        = (Backend.dynamo.table ℕ).cell (((machine (ι := Bool) (Backend.dynamo.table ℕ) 16).exec
            (start none) contended).get (by decide +kernel)).1.shared.row) :=
  ⟨applyCas_linearizable .d1 (Machine.run_of_isSome _ (by decide +kernel)),
    applyCas_linearizable .dynamo (Machine.run_of_isSome _ (by decide +kernel))⟩

/-- An attempt reads 5 under version 0 and stalls; the row is deleted, by a reset or because it has
expired, and another process creates it again. -/
def stalled (deletion : Act ℕ ℕ) : List (Bool × Act ℕ ℕ) :=
  [(false, .start (add 5) 0), (false, .select), (false, .write 0), (false, .start (add 1) 0),
    (false, .select), (true, deletion), (true, .start (add 1) 1000), (true, .select),
    (true, .write 1000), (false, .write 1000)]

/-- Without the condition the update of the other process is lost. -/
theorem recreated_row_loses_update :
    (¬ ∀ log s, (machine (ι := Bool) (R := ℕ) (Backend.d1.table ℕ) 16).Run (fun _ _ => True)
        (start none) log s → Legal service ((Backend.d1.table ℕ).cell none) (commits log)) ∧
    (¬ ∀ log s, (machine (ι := Bool) (R := ℕ) (Backend.dynamo.table ℕ) 16).Run (fun _ _ => True)
        (start none) log s → Legal service ((Backend.dynamo.table ℕ).cell none) (commits log)) :=
  ⟨fun h => absurd (h _ _ (Machine.run_of_isSome (l := stalled .reset) (by decide +kernel)
      (by decide +kernel))) (by decide +kernel),
    fun h => absurd (h _ _ (Machine.run_of_isSome (l := stalled (.reclaim 1000))
      (by decide +kernel) (by decide +kernel))) (by decide +kernel)⟩

end ThrottleKit.VersionedStore
