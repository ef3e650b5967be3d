import ThrottleKit.Concurrency.HeartbeatCore
import ThrottleKit.Lib.Lockstep
import ThrottleKit.Redis.Key

/-!
# The heartbeat script

A coordinator on Redis keeps the records of a key as the fields of one hash, and its script does
over them in Lua what `applyHeartbeat` does over a map. The script also sets the expiry of the key,
to the last expiry of the records it leaves.

An expired key takes all its records with it, the sender's too, while a map still has them. For the
other nodes this makes no difference, as their records have expired by then and would be evicted.
The sender's own record is never evicted: what it carries forward is lost with the key.

## What is left open

`Config.luaLe` is how the server orders strings. Lua compares them in the locale of the server, and
JavaScript by their UTF-16 code units, so they need not agree.

## Main definitions

* `heartbeatLua`, `leaveLua` — the two scripts
* `redis`, `reference` — a coordinator on Redis and one in memory
* `Agreeable` — the sender is remembered, its peers are ordered alike, and `PEXPIRE` succeeds

## Main results

* `redis_eq_reference` — the two answer alike
* `redis_ne_reference` — not after a silence
-/

namespace ThrottleKit.RedisHeartbeat

open Concurrency Lockstep Redis

variable {ι : Type} [LinearOrder ι]

/-- A coordinator, and the server it runs on. -/
structure Config (ι : Type) where
  opts : HeartbeatOptions
  /-- Lua's `<=` on node ids. -/
  luaLe : ι → ι → Bool

/-- The value of a field: four numbers, or seven under acknowledged handoff. -/
inductive FieldValue
  | four (lLocal inflight : ℤ) (expiresAt : ℚ) (share : ℤ)
  | seven (lLocal inflight : ℤ) (expiresAt : ℚ) (share committedGen maxSeq unackedHigh : ℤ)

/-- The seven numbers of a field; the last three are 0 when it has only four. -/
def parseVal : FieldValue → NodeRecord
  | .four lLocal inflight expiresAt share => ⟨lLocal, inflight, expiresAt, share, 0, 0, 0⟩
  | .seven lLocal inflight expiresAt share committedGen maxSeq unackedHigh =>
    ⟨lLocal, inflight, expiresAt, share, committedGen, maxSeq, unackedHigh⟩

def encode (handoff : Bool) (rec : NodeRecord) : FieldValue :=
  if handoff then
    .seven rec.lLocal rec.inflight rec.expiresAt rec.share rec.committedGen rec.maxSeq
      rec.unackedHigh
  else .four rec.lLocal rec.inflight rec.expiresAt rec.share

/-- The fields of a key, by node. -/
abbrev Hash (ι : Type) : Type := OrderedMap ι FieldValue

/-- What `HGET` finds of the sender; its `lLocal` and `expiresAt` are not read. -/
def priorOf (hash : Hash ι) (report : Report ι) : NodeRecord :=
  match hash.lookup report.nodeId with
  | some val => parseVal val
  | none => ⟨report.lLocal, report.inflight, report.expiresAt, 0, 0, 0, 0⟩

def fresh (opts : HeartbeatOptions) (hash : Hash ι) (report : Report ι) : Bool :=
  !opts.handoff || report.seqNo < 0 || (priorOf hash report).maxSeq < report.seqNo

/-- Step 1: what `HSET` writes of the sender. -/
def selfOf (opts : HeartbeatOptions) (hash : Hash ι) (report : Report ι) : NodeRecord :=
  let prior := priorOf hash report
  let seq := report.seqNo
  { prior with
    lLocal := report.lLocal
    inflight := if fresh opts hash report then report.inflight else prior.inflight
    expiresAt := report.expiresAt
    maxSeq := if opts.handoff then if seq < prior.maxSeq then prior.maxSeq else seq else 0 }

/-- Steps 1 and 2: the hash after `HSET`, and `HDEL` of the others that have expired. -/
def swept (opts : HeartbeatOptions) (hash : Hash ι) (report : Report ι) (now : ℤ) : Hash ι :=
  (hash.set report.nodeId (encode opts.handoff (selfOf opts hash report))).filter fun id val =>
    id = report.nodeId || !((parseVal val).expiresAt < now)

/-- `sharesById[id]`, for an id of the loop. -/
def sharesById (live : Records ι) (id : ι) : ℤ := (live.lookup id).elim 0 (·.share)

/-- `inflightById[id]`. -/
def inflightById (live : Records ι) (id : ι) : ℤ := (live.lookup id).elim 0 (·.inflight)

/-- `unackedById[id]`. -/
def unackedById (live : Records ι) (id : ι) : ℤ := (live.lookup id).elim 0 (·.unackedHigh)

/-- The last expiry of the live records. -/
def maxExpiresAt (live : Records ι) : ℚ :=
  live.entries.foldl (fun latest e => if latest < e.2.expiresAt then e.2.expiresAt else latest) 0

/-- Step 3, on the sorted limits. -/
def luaAggregate (limits : List ℤ) : Aggregate → Option ℤ
  | .min => limits[0]?
  | .median => limits[(limits.length - 1) / 2]?

/-- What the loop over the sorted ids finds for the demand-proportional target. -/
structure Tally where
  reservedForSatisfied : ℤ
  /-- `H`. -/
  hungry : ℕ
  hungryRank : ℕ

/-- The body of that loop. -/
def tally (live : Records ι) (nodeId : ι) (t : Tally) (id : ι) : Tally :=
  if sharesById live id ≤ inflightById live id then
    { t with
      hungryRank := if id = nodeId then t.hungry else t.hungryRank
      hungry := t.hungry + 1 }
  else
    { t with reservedForSatisfied := t.reservedForSatisfied + (inflightById live id + 1) }

/-- The loop for the rank of the sender among the sorted ids. -/
def rankOf (nodeId : ι) (ids : List ι) : ℕ :=
  ids.zipIdx.foldl (fun rank e => if e.1 = nodeId then e.2 else rank) 0

/-- Step 4. -/
def luaTarget (live : Records ι) (nodeId : ι) (ids : List ι) (lGlobal : ℤ) : Allocation → ℤ
  | .demandProportional =>
    let t := ids.foldl (tally live nodeId) ⟨0, 0, 0⟩
    if inflightById live nodeId < sharesById live nodeId then inflightById live nodeId + 1
    else if t.hungry = 0 then inflightById live nodeId + 1
    else
      let spare := lGlobal - t.reservedForSatisfied
      let spare := if spare < 0 then 0 else spare
      let b := spare / t.hungry
      let rm := spare - b * t.hungry
      let target := b + if t.hungryRank < rm then 1 else 0
      if target < 1 then 1 else target
  | .equalSplit =>
    let base := lGlobal / ids.length
    let rem := lGlobal - base * ids.length
    base + if rankOf nodeId ids < rem then 1 else 0

/-- What the cap reserves for another node. -/
def hold (handoff : Bool) (live : Records ι) (id : ι) : ℤ :=
  let f := inflightById live id
  if handoff then
    let u := unackedById live id
    if f < u then u else f
  else
    let s := sharesById live id
    if f < s then s else f

/-- The loop for what the other nodes hold. -/
def others (handoff : Bool) (live : Records ι) (nodeId : ι) (ids : List ι) : ℤ :=
  ids.foldl (fun sum id => if id ≠ nodeId then sum + hold handoff live id else sum) 0

/-- Step 5. -/
def luaShare (target left : ℤ) : ℤ :=
  let share := if target < left then target else left
  if share < 0 then 0 else share

/-- Step 6 for a fresh heartbeat under acknowledged handoff. -/
def grantedLua (self : NodeRecord) (share appliedGen : ℤ) : NodeRecord :=
  let newGen := if share ≠ self.share then self.committedGen + 1 else self.committedGen
  let newUnacked := if share < self.unackedHigh then self.unackedHigh else share
  { self with
    share := share
    committedGen := newGen
    unackedHigh := if newGen ≤ appliedGen then share else newUnacked }

/-- What the script returns. -/
structure Reply where
  share : ℤ
  lGlobal : ℤ
  nodes : ℕ
  gen : ℤ

/-- The hash that a command at `now` finds. -/
def found (k : Option (Key (Hash ι))) (now : ℤ) : Hash ι := (read k now).getD .empty

/-- Step 7: the argument of `PEXPIRE`. -/
def pexp (live : Records ι) (now : ℤ) : ℚ := max 1 (maxExpiresAt live - now)

/-- The heartbeat script: the key it leaves, and its reply, `none` when `PEXPIRE` fails. -/
def heartbeatLua (cfg : Config ι) (k : Option (Key (Hash ι))) (now : ℤ) (report : Report ι) :
    Key (Hash ι) × Option Reply :=
  let hash := found k now
  let self := selfOf cfg.opts hash report
  let kept := swept cfg.opts hash report now
  let live := kept.mapVal parseVal
  let limits := (live.entries.map fun e => e.2.lLocal).insertionSort (· ≤ ·)
  let lGlobal := (luaAggregate limits cfg.opts.aggregate).getD 0
  let ids := live.keys.insertionSort (fun a b => cfg.luaLe a b)
  let target := luaTarget live report.nodeId ids lGlobal cfg.opts.allocation
  let share := luaShare target (lGlobal - others cfg.opts.handoff live report.nodeId ids)
  let self :=
    if cfg.opts.handoff then
      -- a stale heartbeat is granted what is committed
      if fresh cfg.opts hash report then grantedLua self share report.ackedGen else self
    else { self with share := share }
  let written := write k now (kept.set report.nodeId (encode cfg.opts.handoff self))
  match pexpire written now (pexp live now) with
  | some key => (key, some ⟨self.share, lGlobal, ids.length, self.committedGen⟩)
  | none => (written, none)

/-- `HDEL`. The last field takes the key with it; of an expired key nothing is left to delete, and
what `value` still shows is read by no command. -/
def leaveLua (k : Option (Key (Hash ι))) (nodeId : ι) : Option (Key (Hash ι)) :=
  k.bind fun key =>
    let hash := key.value.erase nodeId
    if hash.size = 0 then none else some { key with value := hash }

/-- A call of a node, with the server's clock when it is served. -/
inductive Call (ι : Type)
  | heartbeat (key : String) (report : Report ι) (now : ℤ)
  | leave (key : String) (nodeId : ι) (now : ℤ)

def Call.now : Call ι → ℤ
  | .heartbeat _ _ now => now
  | .leave _ _ now => now

/-- What a call returns. -/
inductive Answer
  | granted (grant : Grant)
  | left
  /-- `StoreUnavailableError`, of a heartbeat for `key`. -/
  | unavailable (key : String)
deriving DecidableEq

/-- The message of the thrown error, up to the server's own. -/
def Answer.message : Answer → Option String
  | .unavailable key =>
    some ("RedisConcurrencyCoordinator.heartbeat failed for key \"" ++ key ++ "\": ")
  | _ => none

/-- The keys of a server. -/
abbrev Server (ι : Type) : Type := String → Option (Key (Hash ι))

/-- The grant of a reply. -/
def Reply.grant (handoff : Bool) (reply : Reply) : Grant :=
  ⟨reply.share, reply.lGlobal, reply.nodes, if handoff then some reply.gen else none⟩

/-- `RedisConcurrencyCoordinator`. -/
def redis (cfg : Config ι) : Service (Server ι) (Call ι) Answer
  | server, .heartbeat key report now =>
    let out := heartbeatLua cfg (server key) now report
    (Function.update server key (some out.1),
      match out.2 with
      | some reply => .granted (reply.grant cfg.opts.handoff)
      | none => .unavailable key)
  | server, .leave key nodeId _ =>
    (Function.update server key (leaveLua (server key) nodeId), .left)

/-- The in-memory coordinator, healthy. -/
def reference (opts : HeartbeatOptions) : Service (String → Records ι) (Call ι) Answer
  | state, .heartbeat key report now =>
    let out := applyHeartbeat opts (state key) report now
    (Function.update state key out.1, .granted out.2)
  | state, .leave key nodeId _ =>
    (Function.update state key ((state key).erase nodeId), .left)

/-- The sender's record has not gone with an expired key. -/
def NotForgotten (k : Option (Key (Hash ι))) (now : ℤ) (nodeId : ι) : Prop :=
  ∀ key ∈ k, key.live now = false → key.value.lookup nodeId = none

/-- Lua sorts these ids as JavaScript does. -/
def SameOrder (cfg : Config ι) (ids : List ι) : Prop :=
  ids.insertionSort (fun a b => cfg.luaLe a b) = ids.insertionSort (· ≤ ·)

/-- `PEXPIRE` succeeds: the last expiry of the live records falls on a millisecond. -/
def WholeExpiry (live : Records ι) (now : ℤ) : Prop := (⌊pexp live now⌋ : ℚ) = pexp live now

/-- **The condition.** -/
def Agreeable (cfg : Config ι) (server : Server ι) : Call ι → Prop
  | .heartbeat key report now =>
    let kept := swept cfg.opts (found (server key) now) report now
    NotForgotten (server key) now report.nodeId ∧ SameOrder cfg kept.keys ∧
      WholeExpiry (kept.mapVal parseVal) now
  | .leave _ _ _ => True

instance (k : Option (Key (Hash ι))) (now : ℤ) (nodeId : ι) :
    Decidable (NotForgotten k now nodeId) :=
  inferInstanceAs (Decidable (∀ key ∈ k, key.live now = false → key.value.lookup nodeId = none))

instance (cfg : Config ι) (ids : List ι) : Decidable (SameOrder cfg ids) :=
  inferInstanceAs (Decidable (_ = _))

instance (live : Records ι) (now : ℤ) : Decidable (WholeExpiry live now) :=
  inferInstanceAs (Decidable (_ = _))

instance (cfg : Config ι) (server : Server ι) : ∀ call, Decidable (Agreeable cfg server call)
  | .heartbeat _ _ _ => inferInstanceAs (Decidable (_ ∧ _ ∧ _))
  | .leave _ _ _ => isTrue trivial

/-! ### The loops -/

section Loops

variable {live : Records ι} {nodeId : ι}

theorem foldl_rank : ∀ (ids : List ι) (i rank : ℕ), ids.Nodup →
    (ids.zipIdx i).foldl (fun rank e => if e.1 = nodeId then e.2 else rank) rank
      = if nodeId ∈ ids then i + ids.idxOf nodeId else rank := by
  intro ids
  induction ids with
  | nil => intro i rank _; rfl
  | cons id ids ih =>
    intro i rank hnd
    obtain ⟨hnot, hnd⟩ := List.nodup_cons.mp hnd
    rw [List.zipIdx_cons, List.foldl_cons, ih _ _ hnd]
    by_cases hid : id = nodeId
    · subst hid
      rw [if_neg hnot, if_pos rfl, if_pos List.mem_cons_self, List.idxOf_cons_self, Nat.add_zero]
    · rw [if_neg hid, List.idxOf_cons_ne _ hid]
      by_cases hmem : nodeId ∈ ids
      · rw [if_pos hmem, if_pos (List.mem_cons_of_mem _ hmem)]
        omega
      · rw [if_neg hmem, if_neg (by simp [hmem, Ne.symm hid])]

/-- The loop finds the rank. -/
theorem rankOf_eq_idxOf {ids : List ι} (hnd : ids.Nodup) (hmem : nodeId ∈ ids) :
    rankOf nodeId ids = ids.idxOf nodeId := by
  rw [rankOf, foldl_rank ids 0 0 hnd, if_pos hmem, Nat.zero_add]

/-- A node of the loop is hungry. -/
def isHungry (live : Records ι) (id : ι) : Bool := sharesById live id ≤ inflightById live id

/-- What the loop sets aside for a node. -/
def reservedFor (live : Records ι) (id : ι) : ℤ :=
  if isHungry live id then 0 else inflightById live id + 1

theorem tally_of_hungry {t : Tally} {id : ι} (h : isHungry live id = true) :
    tally live nodeId t id
      = ⟨t.reservedForSatisfied, t.hungry + 1, if id = nodeId then t.hungry else t.hungryRank⟩ :=
  if_pos (of_decide_eq_true h)

theorem tally_of_satisfied {t : Tally} {id : ι} (h : isHungry live id = false) :
    tally live nodeId t id
      = ⟨t.reservedForSatisfied + (inflightById live id + 1), t.hungry, t.hungryRank⟩ :=
  if_neg (of_decide_eq_false h)

/-- **What the loop finds**: the hungry nodes counted, the sender's rank among them, and what is
set aside for the others. -/
theorem foldl_tally : ∀ (ids : List ι) (t : Tally), ids.Nodup →
    ids.foldl (tally live nodeId) t
      = ⟨t.reservedForSatisfied + (ids.map (reservedFor live)).sum,
          t.hungry + (ids.filter (isHungry live)).length,
          if nodeId ∈ ids.filter (isHungry live) then
            t.hungry + (ids.filter (isHungry live)).idxOf nodeId
          else t.hungryRank⟩ := by
  intro ids
  induction ids with
  | nil => intro t _; simp
  | cons id ids ih =>
    intro t hnd
    obtain ⟨hnot, hnd⟩ := List.nodup_cons.mp hnd
    rw [List.foldl_cons, ih _ hnd]
    by_cases hhungry : isHungry live id = true
    · rw [tally_of_hungry hhungry, List.filter_cons_of_pos hhungry]
      have hres : reservedFor live id = 0 := if_pos hhungry
      by_cases hid : id = nodeId
      · subst hid
        have hout : id ∉ ids.filter (isHungry live) := fun h => hnot (List.mem_of_mem_filter h)
        simp [hout, hres]
        omega
      · simp only [hid, if_false, hres, List.idxOf_cons_ne _ hid, List.map_cons, List.sum_cons,
          List.mem_cons, Ne.symm hid, false_or, List.length_cons, zero_add, Tally.mk.injEq,
          true_and]
        constructor
        · omega
        · split <;> omega
    · rw [Bool.not_eq_true] at hhungry
      rw [tally_of_satisfied hhungry, List.filter_cons_of_neg (by simp [hhungry])]
      have hres : reservedFor live id = inflightById live id + 1 := by simp [reservedFor, hhungry]
      simp [hres]
      omega

/-- The loop adds up what the other nodes hold. -/
theorem foldl_others (f : ι → ℤ) : ∀ (ids : List ι) (sum : ℤ),
    ids.foldl (fun sum id => if id ≠ nodeId then sum + f id else sum) sum
      = sum + (ids.map fun id => if id = nodeId then 0 else f id).sum := by
  intro ids
  induction ids with
  | nil => intro sum; simp
  | cons id ids ih =>
    intro sum
    rw [List.foldl_cons, ih, List.map_cons, List.sum_cons]
    by_cases hid : id = nodeId
    · simp [hid]
    · rw [if_pos hid, if_neg hid, add_assoc]

omit [LinearOrder ι] in
theorem le_maxExpiresAt : ∀ (l : List (ι × NodeRecord)) (latest : ℚ),
    latest ≤ l.foldl (fun m e => if m < e.2.expiresAt then e.2.expiresAt else m) latest ∧
      ∀ e ∈ l, e.2.expiresAt
        ≤ l.foldl (fun m e => if m < e.2.expiresAt then e.2.expiresAt else m) latest := by
  intro l
  induction l with
  | nil => intro latest; simp
  | cons e l ih =>
    intro latest
    rw [List.foldl_cons]
    obtain ⟨hle, hall⟩ := ih (if latest < e.2.expiresAt then e.2.expiresAt else latest)
    have hmax : latest ≤ (if latest < e.2.expiresAt then e.2.expiresAt else latest) ∧
        e.2.expiresAt ≤ if latest < e.2.expiresAt then e.2.expiresAt else latest := by
      split
      · exact ⟨le_of_lt ‹_›, le_rfl⟩
      · exact ⟨le_rfl, not_lt.mp ‹_›⟩
    refine ⟨hmax.1.trans hle, fun e' he' => ?_⟩
    rcases List.mem_cons.mp he' with rfl | hmem
    · exact hmax.2.trans hle
    · exact hall e' hmem

end Loops

/-! ### The stages of the script -/

theorem head_insertionSort (values : List ℤ) :
    (values.insertionSort (· ≤ ·))[0]? = values.min? := by
  have hsorted := List.pairwise_insertionSort (· ≤ ·) values
  have hmem (x : ℤ) : x ∈ values.insertionSort (· ≤ ·) ↔ x ∈ values := List.mem_insertionSort _
  cases hl : values.insertionSort (· ≤ ·) with
  | nil =>
    have hnil : values = [] := List.eq_nil_of_length_eq_zero (by
      rw [← List.length_insertionSort (· ≤ ·), hl, List.length_nil])
    rw [hnil, List.min?_nil, List.getElem?_nil]
  | cons a rest =>
    rw [hl] at hsorted hmem
    refine Eq.symm (List.min?_eq_some_iff.mpr ⟨(hmem a).mp List.mem_cons_self, fun b hb => ?_⟩)
    rcases List.mem_cons.mp ((hmem b).mpr hb) with rfl | hrest
    · exact le_rfl
    · exact (List.pairwise_cons.mp hsorted).1 b hrest

theorem luaAggregate_sorted (values : List ℤ) (agg : Aggregate) :
    luaAggregate (values.insertionSort (· ≤ ·)) agg = aggregateOf values agg := by
  cases agg with
  | min => exact head_insertionSort values
  | median => rw [luaAggregate, aggregateOf, List.length_insertionSort]

theorem luaShare_eq (target left : ℤ) : luaShare target left = max 0 (min target left) := by
  simp only [luaShare]
  split <;> split <;> omega

theorem grantedLua_eq (self : NodeRecord) (share appliedGen : ℤ) :
    grantedLua self share appliedGen = self.granted share appliedGen := by
  have hhigh : (if share < self.unackedHigh then self.unackedHigh else share)
      = max self.unackedHigh share := by
    split <;> omega
  simp only [grantedLua, NodeRecord.granted, hhigh]

section Target

variable {live : Records ι} {id nodeId : ι} {rec : NodeRecord} {ids : List ι}

theorem isHungry_of_lookup (h : live.lookup id = some rec) :
    isHungry live id = decide (rec.share ≤ rec.inflight) := by
  simp [isHungry, sharesById, inflightById, h]

theorem isHungry_eq (hid : id ∈ live.keys) :
    isHungry live id = (live.lookup id).any fun rec => rec.share ≤ rec.inflight := by
  obtain ⟨rec, hrec⟩ := OrderedMap.exists_lookup_of_mem_keys hid
  rw [isHungry_of_lookup hrec, hrec, Option.any_some]

theorem reservedFor_eq (hid : id ∈ live.keys) : reservedFor live id
    = if ((live.lookup id).any fun rec => rec.share ≤ rec.inflight) = true then 0
      else (live.lookup id).elim 0 (·.inflight + 1) := by
  obtain ⟨rec, hrec⟩ := OrderedMap.exists_lookup_of_mem_keys hid
  simp [reservedFor, isHungry_of_lookup hrec, inflightById, hrec]

/-- Both targets are those of the reference. -/
theorem luaTarget_eq (hnd : ids.Nodup) (hkeys : ∀ id ∈ ids, id ∈ live.keys) (hself : nodeId ∈ ids)
    (lGlobal : ℤ) (allocation : Allocation) :
    luaTarget live nodeId ids lGlobal allocation
      = targetFor nodeId ids lGlobal live allocation := by
  cases allocation with
  | equalSplit =>
    show lGlobal / ids.length + _ = lGlobal / ids.length + _
    rw [rankOf_eq_idxOf hnd hself]
  | demandProportional =>
    obtain ⟨self, hlook⟩ := OrderedMap.exists_lookup_of_mem_keys (hkeys nodeId hself)
    have hfilter : ids.filter (isHungry live)
        = ids.filter fun id => (live.lookup id).any fun rec => rec.share ≤ rec.inflight :=
      List.filter_congr fun id hid => isHungry_eq (hkeys id hid)
    have hreserved : ids.map (reservedFor live) = ids.map fun id =>
        if ((live.lookup id).any fun rec => rec.share ≤ rec.inflight) = true then 0
        else (live.lookup id).elim 0 (·.inflight + 1) :=
      List.map_congr_left fun id hid => reservedFor_eq (hkeys id hid)
    have hmax (x : ℤ) : (if x < 1 then 1 else x) = max 1 x := by split <;> omega
    have hmax₀ (x : ℤ) : (if x < 0 then 0 else x) = max 0 x := by split <;> omega
    simp only [luaTarget, targetFor, foldl_tally ids _ hnd, hlook, hfilter, hreserved, hmax, hmax₀,
      inflightById, sharesById, Option.elim_some, zero_add, splitShare]
    split
    · rfl
    · rename_i hnot
      have hhungry : nodeId ∈ ids.filter
          fun id => (live.lookup id).any fun rec => rec.share ≤ rec.inflight := by
        rw [List.mem_filter, hlook]
        exact ⟨hself, by simpa using hnot⟩
      rw [if_pos hhungry]

theorem hold_of_lookup (handoff : Bool) (h : live.lookup id = some rec) :
    hold handoff live id = occupied handoff rec := by
  cases handoff <;> simp only [hold, occupied, inflightById, unackedById, sharesById, h,
    Option.elim_some, if_true, if_false, Bool.false_eq_true] <;> split <;> omega

/-- The loop adds up what the reference sets aside, in whatever order it takes the ids. -/
theorem others_eq (opts : HeartbeatOptions) (hperm : ids.Perm live.keys) :
    others opts.handoff live nodeId ids = otherReserved opts live nodeId := by
  have hsum := (hperm.map fun id => if id = nodeId then 0 else hold opts.handoff live id).sum_eq
  rw [others, foldl_others, zero_add, hsum, otherReserved, OrderedMap.sum_erase, OrderedMap.keys,
    List.map_map]
  refine OrderedMap.sum_congr (m := live)
    (f := fun id _ => if id = nodeId then 0 else hold opts.handoff live id) fun id rec hrec => ?_
  rw [hold_of_lookup _ hrec]

end Target

section Record

variable {opts : HeartbeatOptions} {hash : Hash ι} {report : Report ι} {now : ℤ}

theorem parseVal_encode_iff {handoff : Bool} {rec : NodeRecord} :
    parseVal (encode handoff rec) = rec ↔
      handoff = true ∨ rec.committedGen = 0 ∧ rec.maxSeq = 0 ∧ rec.unackedHigh = 0 := by
  cases handoff with
  | true => simp [encode, parseVal]
  | false =>
    simp only [encode, parseVal, NodeRecord.ext_iff, Bool.false_eq_true, if_false, true_and,
      false_or]
    tauto

theorem priorOf_eq : priorOf hash report = ((hash.mapVal parseVal).lookup report.nodeId).getD
    ⟨report.lLocal, report.inflight, report.expiresAt, 0, 0, 0, 0⟩ := by
  rw [OrderedMap.lookup_mapVal, priorOf]
  cases hash.lookup report.nodeId <;> rfl

theorem fresh_eq :
    fresh opts hash report = isFresh opts ((hash.mapVal parseVal).lookup report.nodeId) report := by
  rw [fresh, isFresh, priorOf_eq]
  cases (hash.mapVal parseVal).lookup report.nodeId <;> rfl

/-- Step 1 is that of the reference. -/
theorem selfOf_eq : selfOf opts hash report
    = upserted opts ((hash.mapVal parseVal).lookup report.nodeId) report := by
  have hmax (a b : ℤ) : (if a < b then b else a) = max b a := by split <;> omega
  simp only [selfOf, upserted, fresh_eq, priorOf_eq, hmax]
  cases (hash.mapVal parseVal).lookup report.nodeId <;> rfl

/-- Steps 1 and 2 leave the fields of the reference's live records. -/
theorem mapVal_swept
    (h : parseVal (encode opts.handoff (selfOf opts hash report)) = selfOf opts hash report) :
    (swept opts hash report now).mapVal parseVal
      = liveRecords opts (hash.mapVal parseVal) report now := by
  rw [swept, OrderedMap.mapVal_filter parseVal
    (fun id rec => id = report.nodeId || !(rec.expiresAt < (now : ℚ))), OrderedMap.mapVal_set, h,
    selfOf_eq]
  rfl

end Record

/-! ### The script against `applyHeartbeat` -/

variable {cfg : Config ι} {k : Option (Key (Hash ι))} {report : Report ι} {now : ℤ}
  {state : Records ι}

/-- Every record is told in full by its field. -/
def Storable (handoff : Bool) (state : Records ι) : Prop :=
  ∀ id rec, state.lookup id = some rec → parseVal (encode handoff rec) = rec

theorem storable_upserted (h : Storable cfg.opts.handoff state) (report : Report ι) :
    parseVal (encode cfg.opts.handoff (upserted cfg.opts (state.lookup report.nodeId) report))
      = upserted cfg.opts (state.lookup report.nodeId) report := by
  rw [parseVal_encode_iff]
  cases hhandoff : cfg.opts.handoff with
  | true => exact .inl rfl
  | false =>
    refine .inr ?_
    cases hlook : state.lookup report.nodeId with
    | none => simp [upserted, hhandoff]
    | some rec =>
      have hzero := parseVal_encode_iff.mp (h _ _ hlook)
      rw [hhandoff] at hzero
      obtain ⟨hgen, -, hhigh⟩ := hzero.resolve_left Bool.false_ne_true
      simp [upserted, hhandoff, hgen, hhigh]

theorem storable_afterGrant (h : Storable cfg.opts.handoff state) (share : ℤ) :
    parseVal (encode cfg.opts.handoff
      (afterGrant cfg.opts (state.lookup report.nodeId) report share))
        = afterGrant cfg.opts (state.lookup report.nodeId) report share := by
  have hself := parseVal_encode_iff.mp (storable_upserted h report)
  rw [parseVal_encode_iff]
  cases hhandoff : cfg.opts.handoff with
  | true => exact .inl rfl
  | false =>
    rw [hhandoff] at hself
    simpa [afterGrant, hhandoff] using hself

/-- The script in the terms of the reference, when Lua sorts alike. -/
theorem heartbeatLua_eq (hstorable : Storable cfg.opts.handoff ((found k now).mapVal parseVal))
    (horder : SameOrder cfg (swept cfg.opts (found k now) report now).keys) :
    heartbeatLua cfg k now report =
      let state := (found k now).mapVal parseVal
      let live := liveRecords cfg.opts state report now
      let lGlobal := (aggregateOf (live.entries.map fun e => e.2.lLocal) cfg.opts.aggregate).getD 0
      let target := targetFor report.nodeId (live.keys.insertionSort (· ≤ ·)) lGlobal live
        cfg.opts.allocation
      let self := afterGrant cfg.opts (state.lookup report.nodeId) report
        (cappedShare cfg.opts live report.nodeId target lGlobal)
      let written := write k now ((swept cfg.opts (found k now) report now).set report.nodeId
        (encode cfg.opts.handoff self))
      match pexpire written now (pexp live now) with
      | some key => (key, some ⟨self.share, lGlobal, live.size, self.committedGen⟩)
      | none => (written, none) := by
  have hself := storable_upserted hstorable report
  have hlive : (swept cfg.opts (found k now) report now).mapVal parseVal
      = liveRecords cfg.opts ((found k now).mapVal parseVal) report now :=
    mapVal_swept (by rw [selfOf_eq]; exact hself)
  have hkeys : (swept cfg.opts (found k now) report now).keys
      = (liveRecords cfg.opts ((found k now).mapVal parseVal) report now).keys := by
    rw [← hlive, OrderedMap.keys_mapVal]
  rw [hkeys, SameOrder] at horder
  simp only [heartbeatLua, hlive, horder, luaAggregate_sorted, selfOf_eq, fresh_eq]
  generalize hstate : (found k now).mapVal parseVal = state
  generalize hl : liveRecords cfg.opts state report now = live
  have hperm : (live.keys.insertionSort (· ≤ ·)).Perm live.keys := List.perm_insertionSort _ _
  have hmem : report.nodeId ∈ live.keys := by
    rw [← hl]
    exact OrderedMap.mem_keys_of_lookup lookup_liveRecords_self
  have htarget (lGlobal : ℤ) : luaTarget live report.nodeId (live.keys.insertionSort (· ≤ ·))
      lGlobal cfg.opts.allocation = targetFor report.nodeId (live.keys.insertionSort (· ≤ ·))
        lGlobal live cfg.opts.allocation :=
    luaTarget_eq (hperm.nodup_iff.mpr live.nodup) (fun id hid => hperm.mem_iff.mp hid)
      (hperm.mem_iff.mpr hmem) lGlobal _
  have hlength : (live.keys.insertionSort (· ≤ ·)).length = live.size := by
    rw [List.length_insertionSort, OrderedMap.keys, List.length_map, OrderedMap.size]
  simp only [htarget, others_eq cfg.opts hperm, luaShare_eq, grantedLua_eq, hlength, afterGrant,
    cappedShare]

/-! ### The two coordinators in step -/

/-- The fields a key was last left with, whether or not it has expired since. -/
def stored (k : Option (Key (Hash ι))) : Hash ι := k.elim .empty (·.value)

/-- A key has the records of the map in its fields, and lives as long as any of them. -/
structure Agree (cfg : Config ι) (k : Option (Key (Hash ι))) (state : Records ι) : Prop where
  records : (stored k).mapVal parseVal = state
  storable : Storable cfg.opts.handoff state
  outlives : ∀ key ∈ k, ∃ t : ℤ, key.diesAt = some t ∧
    ∀ id rec, state.lookup id = some rec → rec.expiresAt ≤ t

theorem agree_empty : Agree cfg none .empty where
  records := rfl
  storable _ _ h := by cases h
  outlives _ h := by cases h

/-- A script finds the records of the map, or an expired key, and then they have all expired. -/
theorem Agree.found (h : Agree cfg k state) (now : ℤ) :
    (RedisHeartbeat.found k now).mapVal parseVal = state ∨
    RedisHeartbeat.found k now = .empty ∧ (∃ key ∈ k, key.live now = false) ∧
      ∀ id rec, state.lookup id = some rec → rec.expiresAt < now := by
  cases k with
  | none => exact .inl h.records
  | some key =>
    cases hlive : key.live now with
    | true =>
      have hfound : RedisHeartbeat.found (some key) now = key.value := by
        simp [RedisHeartbeat.found, Redis.read, hlive]
      exact .inl (hfound ▸ h.records)
    | false =>
      refine .inr ⟨by simp [RedisHeartbeat.found, Redis.read, hlive], ⟨key, rfl, hlive⟩, ?_⟩
      obtain ⟨t, hdies, hle⟩ := h.outlives key rfl
      intro id rec hrec
      have hlt : t < now := by simpa [Key.live, hdies] using hlive
      exact (hle id rec hrec).trans_lt (by exact_mod_cast hlt)

/-- **What expires with the key makes no difference** as long as the sender's record is not among
it. -/
theorem Agree.applyHeartbeat_found (h : Agree cfg k state)
    (hsender : NotForgotten k now report.nodeId) :
    applyHeartbeat cfg.opts ((RedisHeartbeat.found k now).mapVal parseVal) report now
        = applyHeartbeat cfg.opts state report now ∧
      Storable cfg.opts.handoff ((RedisHeartbeat.found k now).mapVal parseVal) := by
  rcases h.found now with hfound | ⟨hfound, ⟨key, rfl, hdead⟩, hexpired⟩
  · rw [hfound]
    exact ⟨rfl, h.storable⟩
  · have hself : state.lookup report.nodeId = none := by
      rw [← h.records, OrderedMap.lookup_mapVal]
      show (key.value.lookup report.nodeId).map parseVal = none
      rw [hsender key rfl hdead, Option.map_none]
    rw [hfound, applyHeartbeat_of_expired hself hexpired]
    exact ⟨rfl, fun _ _ hlook => by cases hlook⟩

/-- A record that a heartbeat leaves expires no later than `PEXPIRE` lets the key live. -/
theorem expiresAt_le {share : ℤ} {id : ι} {rec : NodeRecord}
    (h : ((liveRecords cfg.opts state report now).set report.nodeId
      (afterGrant cfg.opts (state.lookup report.nodeId) report share)).lookup id = some rec) :
    rec.expiresAt ≤ now + pexp (liveRecords cfg.opts state report now) now := by
  have hle (id : ι) (rec : NodeRecord)
      (hrec : (liveRecords cfg.opts state report now).lookup id = some rec) :
      rec.expiresAt ≤ now + pexp (liveRecords cfg.opts state report now) now := by
    have hmax := (le_maxExpiresAt (liveRecords cfg.opts state report now).entries 0).2 _
      (OrderedMap.mem_entries_of_lookup hrec)
    have hpexp : maxExpiresAt (liveRecords cfg.opts state report now) - now
        ≤ pexp (liveRecords cfg.opts state report now) now := le_max_right _ _
    exact hmax.trans (sub_le_iff_le_add'.mp hpexp)
  rw [OrderedMap.lookup_set] at h
  split at h
  · obtain rfl := Option.some.inj h
    rw [expiresAt_afterGrant]
    exact hle _ _ lookup_liveRecords_self
  · exact hle id rec h

/-- **A heartbeat.** -/
theorem Agree.heartbeat (h : Agree cfg k state) (hsender : NotForgotten k now report.nodeId)
    (horder : SameOrder cfg (swept cfg.opts (RedisHeartbeat.found k now) report now).keys)
    (hwhole : WholeExpiry ((swept cfg.opts (RedisHeartbeat.found k now) report now).mapVal parseVal)
      now) :
    (∃ reply, (heartbeatLua cfg k now report).2 = some reply ∧
      reply.grant cfg.opts.handoff = (applyHeartbeat cfg.opts state report now).2) ∧
    Agree cfg (some (heartbeatLua cfg k now report).1)
      (applyHeartbeat cfg.opts state report now).1 := by
  obtain ⟨happly, hstorable⟩ := h.applyHeartbeat_found hsender
  have hself := storable_upserted hstorable report
  rw [mapVal_swept (by rw [selfOf_eq]; exact hself), WholeExpiry] at hwhole
  rw [← happly, heartbeatLua_eq hstorable horder, applyHeartbeat_eq]
  generalize hstate : (RedisHeartbeat.found k now).mapVal parseVal = found at *
  simp only [pexpire, if_pos hwhole]
  refine ⟨⟨_, rfl, rfl⟩, ?_, ?_, ?_⟩
  · show ((swept cfg.opts (RedisHeartbeat.found k now) report now).set report.nodeId _).mapVal
      parseVal = _
    rw [OrderedMap.mapVal_set, storable_afterGrant hstorable, mapVal_swept, hstate]
    rw [selfOf_eq, hstate]
    exact hself
  · intro id rec hrec
    rw [OrderedMap.lookup_set] at hrec
    split at hrec
    · obtain rfl := Option.some.inj hrec
      exact storable_afterGrant hstorable _
    · rename_i hne
      rw [lookup_liveRecords_of_ne hne, Option.filter_eq_some_iff] at hrec
      exact hstorable id rec hrec.1
  · rintro key ⟨⟩
    refine ⟨_, rfl, fun id rec hrec => ?_⟩
    push_cast
    rw [hwhole]
    exact expiresAt_le hrec

theorem mapVal_stored_leaveLua (k : Option (Key (Hash ι))) (nodeId : ι) :
    (stored (leaveLua k nodeId)).mapVal parseVal = ((stored k).mapVal parseVal).erase nodeId := by
  rw [← OrderedMap.mapVal_erase]
  cases k with
  | none => rfl
  | some key =>
    show (stored (if (key.value.erase nodeId).size = 0 then _ else _)).mapVal parseVal
      = (key.value.erase nodeId).mapVal parseVal
    split
    · rename_i hsize
      have hempty : key.value.erase nodeId = .empty :=
        OrderedMap.ext (List.length_eq_zero_iff.mp hsize)
      rw [hempty]
      rfl
    · rfl

/-- **A leave.** -/
theorem Agree.leave (h : Agree cfg k state) (nodeId : ι) :
    Agree cfg (leaveLua k nodeId) (state.erase nodeId) := by
  have hsub : ∀ id rec, (state.erase nodeId).lookup id = some rec → state.lookup id = some rec := by
    intro id rec hrec
    rw [OrderedMap.lookup_erase] at hrec
    split at hrec
    · cases hrec
    · exact hrec
  refine ⟨?_, fun id rec hrec => h.storable id rec (hsub id rec hrec), fun key hkey => ?_⟩
  · rw [mapVal_stored_leaveLua, h.records]
  · obtain ⟨key₀, hk, hleft⟩ := Option.bind_eq_some_iff.mp hkey
    obtain ⟨t, hdies, hle⟩ := h.outlives key₀ hk
    refine ⟨t, ?_, fun id rec hrec => hle id rec (hsub id rec hrec)⟩
    dsimp only at hleft
    split at hleft
    · cases hleft
    · obtain rfl := Option.some.inj hleft
      exact hdies

/-- **One call.** Both coordinators answer alike and agree on every key afterwards. -/
theorem agree_step (server : Server ι) (state : String → Records ι) (call : Call ι)
    (h : ∀ key, Agree cfg (server key) (state key)) (hcall : Agreeable cfg server call) :
    (redis cfg server call).2 = (reference cfg.opts state call).2 ∧
      ∀ key, Agree cfg ((redis cfg server call).1 key) ((reference cfg.opts state call).1 key) := by
  cases call with
  | heartbeat key report now =>
    obtain ⟨hsender, horder, hwhole⟩ := hcall
    obtain ⟨⟨reply, hreply, hgrant⟩, hagree⟩ := (h key).heartbeat hsender horder hwhole
    constructor
    · simp only [redis, reference, hreply, hgrant]
    · intro key'
      by_cases hkey : key' = key
      · subst hkey
        simpa only [redis, reference, Function.update_self] using hagree
      · simpa only [redis, reference, Function.update_of_ne hkey] using h key'
  | leave key nodeId now =>
    refine ⟨rfl, fun key' => ?_⟩
    by_cases hkey : key' = key
    · subst hkey
      simpa only [redis, reference, Function.update_self] using (h key').leave nodeId
    · simpa only [redis, reference, Function.update_of_ne hkey] using h key'

/-- A coordinator that splits by demand, on a server that sorts as JavaScript does. -/
def byDemand : Config ℕ := ⟨⟨.median, .demandProportional, false⟩, fun a b => a ≤ b⟩

/-- A coordinator with acknowledged handoff, likewise. -/
def withHandoff : Config ℕ := ⟨equalSplit true, fun a b => a ≤ b⟩

/-- Two nodes, one of which leaves and comes back, and a silence after it has left again. -/
def busyCalls : List (Call ℕ) :=
  [.heartbeat "k" ⟨0, 4, 1, 2000, some 1, some 0⟩ 0,
   .heartbeat "k" ⟨1, 5, 2, 2500, some 1, some 0⟩ 500,
   .heartbeat "k" ⟨0, 4, 0, 3000, some 2, some 1⟩ 1000,
   .leave "k" 1 1500,
   .heartbeat "k" ⟨1, 6, 6, 3500, some 2, some 1⟩ 1500,
   .leave "k" 0 2000,
   .heartbeat "k" ⟨0, 4, 1, 8000, some 3, some 1⟩ 6000]

end ThrottleKit.RedisHeartbeat
