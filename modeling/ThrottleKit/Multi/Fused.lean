import ThrottleKit.Algorithms.FixedWindow
import ThrottleKit.Algorithms.Gcra
import ThrottleKit.Algorithms.TokenBucket
import ThrottleKit.Multi.Sync
import ThrottleKit.Redis.Key

/-!
# Limits of many dimensions on Redis

One script evaluates every dimension, decides, and writes what the dimensions it consumes were
evaluated to. An arrival time is a string, a bucket and a window are two fields each of a hash.

What is written was evaluated before anything was written. Where dimensions share a key, the second
write thus takes no account of the first: of two charges one is lost, or one of the two finds a
value of the other's type. A bucket and a window may share a hash, whose fields they keep apart.

The start and the count of a window are joined to a string before they are written, and so keep
fourteen digits. In exact numbers a window ends after every instant in it; in doubles it may end at
one, and the script then gives its key no time to live.

## Main definitions

* `Kind`, `evalDim`, `put` — the branches of the script
* `fusedScript`, `checkAt` — one check
* `chargeFused`, `FusedAllOrNothing` — one dimension charged for itself, and what a check promises
* `FusedApart` — the dimensions consumed do not meet, and their counts read back

## Main results

* `writeAll_eq` — then the writes are the charges, one after another
* `multi_all_or_nothing` — what is left of the promise, in process and on Redis
* `not_multi_all_or_nothing` — and where it fails
-/

namespace ThrottleKit.Multi

open Rounding

variable {Ctx ε : Type}

/-- The strategies the script has a branch for. -/
inductive Kind
  | gcra (cfg : Gcra.Config)
  | tokenBucket (cfg : TokenBucket.Config)
  | fixedWindow (cfg : FixedWindow.Config)

/-- A strategy, with the branch of the script for it. -/
structure Fusable where
  name : String
  kind : Option Kind

/-- The fields of a hash: tokens and when they were counted, window start and count. -/
structure Fields where
  t : Option ℚ
  l : Option ℚ
  s : Option ℚ
  c : Option ℚ
deriving DecidableEq

/-- A hash with no field. -/
def Fields.empty : Fields := ⟨none, none, none, none⟩

/-- What a key holds. -/
inductive Value
  | str (tat : ℚ)
  | hash (fields : Fields)
deriving DecidableEq

/-- The keys of the server. -/
abbrev Db := String → Option (Redis.Key Value)

/-- `GET key`; `none` is the error for a key of another type. -/
def getTat : Option Value → Option (Option ℚ)
  | none => some none
  | some (.str tat) => some (some tat)
  | some (.hash _) => none

/-- `HMGET key …`; `none` is the error for a key of another type. -/
def getFields : Option Value → Option Fields
  | none => some .empty
  | some (.hash fields) => some fields
  | some (.str _) => none

/-- What a dimension is to write, and for how long. -/
inductive Write
  | tat (tat : ℚ) (px : ℤ)
  | bucket (t l : ℚ) (px : ℤ)
  | window (s c : ℚ) (px : ℤ)

/-- The numbers of a write that are joined to a string with fourteen digits. -/
def Write.text : Write → List ℚ
  | .window s c _ => [s, c]
  | _ => []

/-- How long it is to live. -/
def Write.px : Write → ℤ
  | .tat _ px => px
  | .bucket _ _ px => px
  | .window _ _ px => px

/-- The stored arrival time, no earlier than `now`. -/
def pushedTat (stored : Option ℚ) (now : ℚ) : ℚ :=
  let tat := stored.getD now
  if tat < now then now else tat

/-- Type 1. -/
def evalGcra [Rounding] (cfg : Gcra.Config) (stored : Option ℚ) (cost now : ℚ) :
    Decision × Option Write :=
  let T := fl (cfg.periodMs / cfg.limit)
  let tau := fl (T * cfg.burst)
  let inc := fl (T * cost)
  let tat := pushedTat stored now
  let nt := fl (tat + inc)
  let aa := fl (nt - tau)
  if now < aa then
    (⟨false, cfg.burst, max 0 ⌊fl (fl (tau - fl (tat - now)) / T)⌋, ⌈tat⌉, ⌈fl (aa - now)⌉⟩, none)
  else
    (⟨true, cfg.burst, max 0 ⌊fl (fl (tau - fl (nt - now)) / T)⌋, ⌈nt⌉, 0⟩,
      some (.tat nt (max 1 ⌈fl (nt - now)⌉)))

/-- The tokens at `now`, up to the capacity. -/
def refilledTokens [Rounding] (cfg : TokenBucket.Config) (t l : Option ℚ) (now : ℚ) : ℚ :=
  let refill := fl (cfg.refillPerSec / 1000)
  let el := fl (now - l.getD now)
  let el := if el < 0 then 0 else el
  let tk := fl (t.getD cfg.capacity + fl (el * refill))
  if tk > cfg.capacity then cfg.capacity else tk

/-- Type 2. -/
def evalBucket [Rounding] (cfg : TokenBucket.Config) (t l : Option ℚ) (cost now : ℚ) :
    Decision × Option Write :=
  let refill := fl (cfg.refillPerSec / 1000)
  let tk := refilledTokens cfg t l now
  let ttl := max 1 ⌈fl (cfg.capacity / refill)⌉
  if tk ≥ cost then
    let ntk := fl (tk - cost)
    (⟨true, cfg.capacity, max 0 ⌊ntk⌋, fl (now + ⌈fl (fl (cfg.capacity - ntk) / refill)⌉), 0⟩,
      some (.bucket ntk now ttl))
  else
    (⟨false, cfg.capacity, max 0 ⌊tk⌋, fl (now + ⌈fl (fl (cfg.capacity - tk) / refill)⌉),
      ⌈fl (fl (cost - tk) / refill)⌉⟩, none)

/-- The count of the window that starts at `ws`. -/
def storedCount (s c : Option ℚ) (ws : ℚ) : ℚ := if s = some ws then c.getD 0 else 0

/-- Type 3. -/
def evalWindow [Rounding] (cfg : FixedWindow.Config) (s c : Option ℚ) (cost now : ℚ) :
    Decision × Option Write :=
  let ws := startOf cfg.windowMs now
  let rsa := fl (ws + cfg.windowMs)
  let ct := storedCount s c ws
  if fl (ct + cost) ≤ cfg.limit then
    (⟨true, cfg.limit, max 0 (fl (cfg.limit - fl (ct + cost))), rsa, 0⟩,
      some (.window ws (fl (ct + cost)) ⌈fl (rsa - now)⌉))
  else (⟨false, cfg.limit, max 0 (fl (cfg.limit - ct)), rsa, ⌈fl (rsa - now)⌉⟩, none)

/-- One dimension of the first loop. -/
def evalDim [Rounding] (kind : Kind) (cost now : ℚ) (found : Option Value) :
    Option (Decision × Option Write) :=
  match kind with
  | .gcra cfg => (getTat found).map fun tat => evalGcra cfg tat cost now
  | .tokenBucket cfg => (getFields found).map fun h => evalBucket cfg h.t h.l cost now
  | .fixedWindow cfg => (getFields found).map fun h => evalWindow cfg h.s h.c cost now

/-- The clock of the server, and the time the script goes by. -/
structure Reading where
  server : ℤ
  now : ℚ

/-- One write, which leaves no key where it is given no time to live; the outer `none` is the error
for a key of another type. `text` is what the numbers of a window read back as. -/
def put (text : ℚ → ℚ) (now : ℤ) (found : Option Value) :
    Write → Option (Option (Redis.Key Value))
  | .tat tat px => some (some (Redis.writePx now (.str tat) px))
  | .bucket t l px =>
    (getFields found).map fun h => Redis.expireIn now (.hash { h with t := some t, l := some l }) px
  | .window s c px =>
    (getFields found).map fun h =>
      Redis.expireIn now (.hash { h with s := some (text s), c := some (text c) }) px

/-- A charge evaluated on what is found at its key. -/
def evaluated [Rounding] (db : Db) (r : Reading) (c : Charge Kind) :
    Option (Decision × Option Write) :=
  evalDim c.strategy c.cost r.now (Redis.read (db c.key) r.server)

/-- The first loop. -/
def probes [Rounding] (db : Db) (r : Reading) (charges : List (Charge Kind)) :
    Option (List (Probe Kind)) :=
  charges.mapM fun c => (evaluated db r c).map fun out => ⟨c, out.1, out.2.isSome⟩

/-- The second loop, which writes what was evaluated on `db₀`. An error ends the script there, with
what was written until then; the flag says whether there was none. -/
def writeAll [Rounding] (db₀ : Db) (r : Reading) : Db → List (Charge Kind) → Db × Bool
  | db, [] => (db, true)
  | db, c :: cs =>
    match (evaluated db₀ r c).bind Prod.snd with
    | some w =>
      match put (fl ∘ Redis.readBack) r.server (Redis.read (db c.key) r.server) w with
      | some k => writeAll db₀ r (Function.update db c.key k) cs
      | none => (db, false)
    | none => writeAll db₀ r db cs

/-- The script, with its reply in whole numbers. -/
def fusedScript [Rounding] (mode : Mode) (db : Db) (r : Reading) (charges : List (Charge Kind)) :
    Db × Except (Failure ε) Decision :=
  match probes db r charges with
  | none => (db, .error .wrongType)
  | some ps =>
    let d := combine mode (ps.map (·.result))
    let written := writeAll db r db (consumed mode ps)
    (written.1,
      if written.2 then
        .ok ⟨d.allowed, Redis.luaInteger d.limit, Redis.luaInteger d.remaining,
          Redis.luaInteger d.resetAt, Redis.luaInteger d.retryAfterMs⟩
      else .error .wrongType)

/-- `encodeDim(strategy)`, of a dimension. -/
def encodeDim (dim : Dimension Ctx ε Fusable) : Except (Failure ε) (Dimension Ctx ε Kind) :=
  match dim.strategy.kind with
  | some kind => .ok { dim with strategy := kind }
  | none => .error (.unsupported dim.strategy.name)

/-- The charges a check sends to the script, unless it throws. -/
def fusedCharges [Rounding] (cfg : Config Ctx ε Fusable) (ctx : Ctx) (cost : ℚ) :
    Except (Failure ε) (List (Charge Kind)) := do
  (requireCost cost).mapError .badCost
  let dimensions ← cfg.dimensions.mapM encodeDim
  gather cfg.keyPrefix dimensions ctx cost

/-- `check(ctx, cost)` on Redis. -/
def checkAt [Rounding] (cfg : Config Ctx ε Fusable) (db : Db) (ctx : Ctx) (cost : ℚ) (r : Reading) :
    Db × Except (Failure ε) Decision :=
  match fusedCharges cfg ctx cost with
  | .error error => (db, .error error)
  | .ok charges => fusedScript cfg.mode db r charges

/-! ### One dimension for itself -/

/-- The dimension's own evaluation: it must allow, and what it asks is written as it is. -/
def chargeFused [Rounding] (r : Reading) (db : Db) (c : Charge Kind) : Option Db := do
  let w ← (evaluated db r c).bind Prod.snd
  let k ← put id r.server (Redis.read (db c.key) r.server) w
  return Function.update db c.key k

/-- What a check promises. If it throws, every key is as it was. Otherwise it says what the
dimensions say together, and each dimension it consumes has been charged its cost once, all others
being as they were; none is consumed when the composite denies. -/
def FusedAllOrNothing [Rounding] (cfg : Config Ctx ε Fusable) (db : Db) (ctx : Ctx) (cost : ℚ)
    (r : Reading) : Prop :=
  match checkAt cfg db ctx cost r with
  | (db', .error _) => db' = db
  | (db', .ok d) => ∃ charges ps, fusedCharges cfg ctx cost = .ok charges ∧
      probes db r charges = some ps ∧ d.allowed = cfg.mode.allows (ps.map (·.result)) ∧
      (consumed cfg.mode ps).foldlM (chargeFused r) db = some db'

/-! ### Charges that do not meet -/

/-- A bucket and a window keep to their own fields of a hash. -/
def Kind.ownFields : Kind → Kind → Bool
  | .tokenBucket _, .fixedWindow _ => true
  | .fixedWindow _, .tokenBucket _ => true
  | _, _ => false

/-- The two dimensions have a key each, or fields each of one hash. -/
def Apart (c c' : Charge Kind) : Prop :=
  c.key ≠ c'.key ∨ c.strategy.ownFields c'.strategy = true

instance (c c' : Charge Kind) : Decidable (Apart c c') :=
  inferInstanceAs (Decidable (_ ∨ _))

/-- What the charge writes is there to be found: the start and the count of a window read back as
they are, and the key is given a time to live. -/
def ReadsBack [Rounding] (db : Db) (r : Reading) (c : Charge Kind) : Prop :=
  ∀ w ∈ (evaluated db r c).bind Prod.snd,
    (w.text.all fun x => fl (Redis.readBack x) = x) = true ∧ 0 < w.px

instance ReadsBack.decidable [Rounding] (db : Db) (r : Reading) (c : Charge Kind) :
    Decidable (ReadsBack db r c) :=
  inferInstanceAs (Decidable (∀ w ∈ (evaluated db r c).bind Prod.snd, _ = true ∧ _ < _))

/-- The dimensions that the check consumes do not meet, and what they write is there to be found. -/
def FusedApart [Rounding] (cfg : Config Ctx ε Fusable) (db : Db) (ctx : Ctx) (cost : ℚ)
    (r : Reading) : Prop :=
  ∀ charges ∈ (fusedCharges cfg ctx cost).toOption, ∀ ps ∈ probes db r charges,
    (consumed cfg.mode ps).Pairwise Apart ∧ ∀ c ∈ consumed cfg.mode ps, ReadsBack db r c

instance FusedApart.decidable [Rounding] (cfg : Config Ctx ε Fusable) (db : Db) (ctx : Ctx)
    (cost : ℚ) (r : Reading) : Decidable (FusedApart cfg db ctx cost r) :=
  inferInstanceAs (Decidable (∀ charges ∈ (fusedCharges cfg ctx cost).toOption,
    ∀ ps ∈ probes db r charges, _ ∧ ∀ c ∈ consumed cfg.mode ps, _))

section Writes

variable [Rounding] {db db₀ : Db} {now : ℚ} {server : ℤ} {r : Reading} {found : Option Value}
  {cost : ℚ}
  {d : Decision} {w : Write}
  {c c' : Charge Kind}

/-- An arrival time is what GCRA writes. -/
theorem evalGcra_write {cfg : Gcra.Config} {stored : Option ℚ}
    (h : (evalGcra cfg stored cost now).2 = some w) : ∃ tat px, w = .tat tat px := by
  unfold evalGcra at h
  dsimp only at h
  split at h
  · cases h
  · exact ⟨_, _, (Option.some.inj h).symm⟩

/-- A bucket writes its two fields. -/
theorem evalBucket_write {cfg : TokenBucket.Config} {t l : Option ℚ}
    (h : (evalBucket cfg t l cost now).2 = some w) : ∃ t' l' px, w = .bucket t' l' px := by
  unfold evalBucket at h
  dsimp only at h
  split at h
  · exact ⟨_, _, _, (Option.some.inj h).symm⟩
  · cases h

/-- A window writes its two fields. -/
theorem evalWindow_write {cfg : FixedWindow.Config} {s n : Option ℚ}
    (h : (evalWindow cfg s n cost now).2 = some w) : ∃ s' n' px, w = .window s' n' px := by
  unfold evalWindow at h
  dsimp only at h
  split at h
  · exact ⟨_, _, _, (Option.some.inj h).symm⟩
  · cases h

/-- What was evaluated on the value of a key can be written over it. -/
theorem put_isSome (text : ℚ → ℚ) {kind : Kind}
    (h : evalDim kind cost now found = some (d, some w)) :
    ∃ k, put text server found w = some k := by
  cases kind with
  | gcra cfg =>
    obtain ⟨stored, -, heval⟩ := Option.map_eq_some_iff.mp h
    obtain ⟨tat, px, rfl⟩ := evalGcra_write (congrArg Prod.snd heval)
    exact ⟨_, rfl⟩
  | tokenBucket cfg =>
    obtain ⟨fields, hfields, heval⟩ := Option.map_eq_some_iff.mp h
    obtain ⟨t, l, px, rfl⟩ := evalBucket_write (congrArg Prod.snd heval)
    exact ⟨_, by rw [put, hfields]; rfl⟩
  | fixedWindow cfg =>
    obtain ⟨fields, hfields, heval⟩ := Option.map_eq_some_iff.mp h
    obtain ⟨s, n, px, rfl⟩ := evalWindow_write (congrArg Prod.snd heval)
    exact ⟨_, by rw [put, hfields]; rfl⟩

omit [Rounding] in
/-- Two dimensions that share a key without meeting are a bucket and a window. -/
theorem Apart.kinds (h : Apart c c') (hkey : c'.key = c.key) :
    (∃ cfg cfg', c.strategy = .tokenBucket cfg ∧ c'.strategy = .fixedWindow cfg') ∨
      ∃ cfg cfg', c.strategy = .fixedWindow cfg ∧ c'.strategy = .tokenBucket cfg' := by
  have hkinds := h.resolve_left fun hne => hne hkey.symm
  cases hc : c.strategy with
  | gcra cfg =>
    rw [hc] at hkinds
    exact absurd hkinds Bool.false_ne_true
  | tokenBucket cfg =>
    cases hc' : c'.strategy with
    | fixedWindow cfg' => exact .inl ⟨cfg, cfg', rfl, rfl⟩
    | _ =>
      rw [hc, hc'] at hkinds
      exact absurd hkinds Bool.false_ne_true
  | fixedWindow cfg =>
    cases hc' : c'.strategy with
    | tokenBucket cfg' => exact .inr ⟨cfg, cfg', rfl, rfl⟩
    | _ =>
      rw [hc, hc'] at hkinds
      exact absurd hkinds Bool.false_ne_true

/-- **A charge that is written changes nothing for one that it does not meet.** -/
theorem evaluated_update {k : Option (Redis.Key Value)} (hapart : Apart c c')
    (heval : evaluated db r c = some (d, some w)) (hpx : 0 < w.px)
    (hput : put id r.server (Redis.read (db c.key) r.server) w = some k) :
    evaluated (Function.update db c.key k) r c' = evaluated db r c' := by
  unfold evaluated at heval ⊢
  by_cases hkey : c'.key = c.key
  · rw [hkey, Function.update_self]
    generalize Redis.read (db c.key) r.server = found at heval hput ⊢
    -- the fields of the one are those that the other keeps
    rcases hapart.kinds hkey with ⟨cfg, cfg', hc, hc'⟩ | ⟨cfg, cfg', hc, hc'⟩
    · rw [hc] at heval
      obtain ⟨fields, hfields, hwrite⟩ := Option.map_eq_some_iff.mp heval
      obtain ⟨t, l, px, rfl⟩ := evalBucket_write (congrArg Prod.snd hwrite)
      have hpos : 0 < px := hpx
      rw [put, hfields, Option.map_some, Redis.expireIn_of_pos _ _ hpos] at hput
      obtain rfl := Option.some.inj hput
      rw [Redis.read_writePx, if_pos (by omega), hc', evalDim, evalDim, hfields]
      rfl
    · rw [hc] at heval
      obtain ⟨fields, hfields, hwrite⟩ := Option.map_eq_some_iff.mp heval
      obtain ⟨s, n, px, rfl⟩ := evalWindow_write (congrArg Prod.snd hwrite)
      have hpos : 0 < px := hpx
      rw [put, hfields, Option.map_some, Redis.expireIn_of_pos _ _ hpos] at hput
      obtain rfl := Option.some.inj hput
      rw [Redis.read_writePx, if_pos (by omega), hc', evalDim, evalDim, hfields]
      rfl
  · rw [Function.update_of_ne hkey]

/-- What reads back is written as it is. -/
theorem put_of_readsBack (heval : evaluated db₀ r c = some (d, some w))
    (h : ReadsBack db₀ r c) :
    put (fl ∘ Redis.readBack) r.server found w = put id r.server found w := by
  have htext := (h w (by rw [heval]; rfl)).1
  cases w with
  | tat _ _ => rfl
  | bucket _ _ _ => rfl
  | window s n px =>
    have hback : fl (Redis.readBack s) = s ∧ fl (Redis.readBack n) = n := by
      simpa [Write.text] using htext
    rw [put, put, Function.comp_apply, Function.comp_apply, hback.1, hback.2]
    rfl

/-- **The writes are the charges, one after another**, when they do not meet. -/
theorem writeAll_eq : ∀ (cs : List (Charge Kind)) {db : Db},
    (∀ c ∈ cs, evaluated db r c = evaluated db₀ r c) → cs.Pairwise Apart →
    (∀ c ∈ cs, ReadsBack db₀ r c) → (∀ c ∈ cs, ∃ d w, evaluated db₀ r c = some (d, some w)) →
    ∃ db', writeAll db₀ r db cs = (db', true) ∧ cs.foldlM (chargeFused r) db = some db'
  | [], db, _, _, _, _ => ⟨db, rfl, rfl⟩
  | c :: cs, db, hsame, hapart, hback, hasks => by
    obtain ⟨hhead, htail⟩ := List.pairwise_cons.mp hapart
    obtain ⟨d, w, heval⟩ := hasks c List.mem_cons_self
    have heval' : evaluated db r c = some (d, some w) :=
      (hsame c List.mem_cons_self).trans heval
    obtain ⟨k, hk⟩ := put_isSome id heval'
    have hput : put (fl ∘ Redis.readBack) r.server (Redis.read (db c.key) r.server) w = some k :=
      (put_of_readsBack heval (hback c List.mem_cons_self)).trans hk
    have hpx : 0 < w.px := (hback c List.mem_cons_self w (by rw [heval]; rfl)).2
    have hsame' : ∀ c' ∈ cs,
        evaluated (Function.update db c.key k) r c' = evaluated db₀ r c' := fun c' hc' =>
      (evaluated_update (hhead c' hc') heval' hpx hk).trans
        (hsame c' (List.mem_cons_of_mem _ hc'))
    obtain ⟨db', hwrite, hcharge⟩ := writeAll_eq cs hsame' htail
      (fun c' hc' => hback c' (List.mem_cons_of_mem _ hc'))
      (fun c' hc' => hasks c' (List.mem_cons_of_mem _ hc'))
    refine ⟨db', ?_, ?_⟩
    · rw [writeAll, heval]
      show (match put (fl ∘ Redis.readBack) r.server (Redis.read (db c.key) r.server) w with
        | some k => writeAll db₀ r (Function.update db c.key k) cs
        | none => (db, false)) = _
      rw [hput]
      exact hwrite
    · rw [List.foldlM_cons]
      have hone : chargeFused r db c = some (Function.update db c.key k) := by
        unfold chargeFused
        rw [heval']
        show (put id r.server (Redis.read (db c.key) r.server) w).bind _ = _
        rw [hk]
        rfl
      rw [hone]
      exact hcharge

/-- What the first loop finds of a dimension. -/
theorem evaluated_of_mem_probes : ∀ (charges : List (Charge Kind)) {ps : List (Probe Kind)},
    probes db r charges = some ps →
    ∀ p ∈ ps, ∃ out, evaluated db r p.charge = some out ∧ p.asks = out.2.isSome
  | [], ps, h, p, hp => by
    obtain rfl : [] = ps := Option.some.inj h
    cases hp
  | c :: charges, ps, h, p, hp => by
    rw [probes, List.mapM_cons] at h
    obtain ⟨q, hq, hrest⟩ := Option.bind_eq_some_iff.mp h
    obtain ⟨out, hout, rfl⟩ := Option.map_eq_some_iff.mp hq
    obtain ⟨ps', hps', hcons⟩ := Option.bind_eq_some_iff.mp hrest
    obtain rfl := Option.some.inj hcons
    rcases List.mem_cons.mp hp with rfl | hmem
    · exact ⟨out, hout, rfl⟩
    · exact evaluated_of_mem_probes charges hps' p hmem

end Writes

/-- **A check on Redis is all or nothing** when the dimensions it consumes do not meet. -/
theorem fusedAllOrNothing_of_apart [Rounding] {cfg : Config Ctx ε Fusable} {db : Db} {ctx : Ctx}
    {cost : ℚ} {r : Reading} (h : FusedApart cfg db ctx cost r) :
    FusedAllOrNothing cfg db ctx cost r := by
  unfold FusedAllOrNothing checkAt
  cases hcharges : fusedCharges cfg ctx cost with
  | error error => exact rfl
  | ok charges =>
    dsimp only
    unfold fusedScript
    cases hps : probes db r charges with
    | none => exact rfl
    | some ps =>
      obtain ⟨hapart, hback⟩ := h charges (by rw [hcharges]; rfl) ps hps
      have hasks : ∀ c ∈ consumed cfg.mode ps, ∃ d w, evaluated db r c = some (d, some w) := by
        intro c hc
        obtain ⟨p, hp, rfl, -, hasks⟩ := allowed_of_mem_consumed hc
        obtain ⟨⟨d, w⟩, hout, heq⟩ := evaluated_of_mem_probes charges hps p hp
        obtain ⟨w, rfl⟩ := Option.isSome_iff_exists.mp (heq.symm.trans hasks)
        exact ⟨d, w, hout⟩
      obtain ⟨db', hwrite, hcharge⟩ := writeAll_eq (consumed cfg.mode ps) (fun _ _ => rfl) hapart
        hback hasks
      dsimp only
      rw [hwrite]
      exact ⟨charges, ps, rfl, hps, combine_allowed _ _, hcharge⟩

/-- The charges of a check that keeps its promise go through one after another. -/
theorem isSome_of_fusedAllOrNothing [Rounding] {cfg : Config Ctx ε Fusable} {db : Db} {ctx : Ctx}
    {cost : ℚ} {r : Reading} (h : FusedAllOrNothing cfg db ctx cost r)
    (hok : (checkAt cfg db ctx cost r).2.isOk = true) :
    ∀ charges ∈ (fusedCharges cfg ctx cost).toOption, ∀ ps ∈ probes db r charges,
      ((consumed cfg.mode ps).foldlM (chargeFused r) db).isSome = true := by
  unfold FusedAllOrNothing at h
  intro charges hcharges ps hps
  split at h
  · rename_i heq
    rw [heq] at hok
    cases hok
  · obtain ⟨charges', ps', hcharges', hps', -, hrun⟩ := h
    rw [hcharges'] at hcharges
    obtain rfl := Option.some.inj hcharges
    obtain rfl := Option.some.inj (hps.symm.trans hps')
    exact Option.isSome_of_eq_some hrun

/-- In exact numbers what is written has a time to live. -/
theorem px_pos {db : Db} {r : Reading} {c : Charge Kind} {w : Write}
    (h : w ∈ (evaluated db r c).bind Prod.snd) : 0 < w.px := by
  obtain ⟨out, hout, hw⟩ := Option.bind_eq_some_iff.mp h
  unfold evaluated at hout
  cases hkind : c.strategy with
  | gcra cfg =>
    rw [hkind] at hout
    obtain ⟨stored, -, rfl⟩ := Option.map_eq_some_iff.mp hout
    unfold evalGcra at hw
    dsimp only at hw
    split at hw
    · cases hw
    · rw [← Option.some.inj hw]
      exact zero_lt_one.trans_le (le_max_left _ _)
  | tokenBucket cfg =>
    rw [hkind] at hout
    obtain ⟨fields, -, rfl⟩ := Option.map_eq_some_iff.mp hout
    unfold evalBucket at hw
    dsimp only at hw
    split at hw
    · rw [← Option.some.inj hw]
      exact zero_lt_one.trans_le (le_max_left _ _)
    · cases hw
  | fixedWindow cfg =>
    rw [hkind] at hout
    obtain ⟨fields, -, rfl⟩ := Option.map_eq_some_iff.mp hout
    unfold evalWindow at hw
    dsimp only at hw
    split at hw
    · rw [← Option.some.inj hw]
      have hend : r.now < AlignedWindow.alignedStart cfg.windowMs r.now + cfg.windowMs :=
        AlignedWindow.lt_alignedStart_add cfg.windowMs_pos
      exact Int.ceil_pos.mpr (sub_pos.mpr hend)
    · cases hw

/-- So there it is the text alone that has to read back. -/
theorem readsBack_exact_iff {db : Db} {r : Reading} {c : Charge Kind} :
    ReadsBack db r c ↔ ∀ w ∈ (evaluated db r c).bind Prod.snd,
      (w.text.all fun x => Redis.readBack x = x) = true :=
  forall₂_congr fun _ hw => and_iff_left (px_pos hw)

/-- **All or nothing, in process and on Redis**: in process exactly when entries that dimensions
share have room for all of them, on Redis when the dimensions consumed do not meet. -/
theorem multi_all_or_nothing [Rounding] (Ctx ε σ : Type) :
    (∀ (cfg : Config Ctx ε (InPlace σ)) (e : Entries σ) (ctx : Ctx) (cost now : ℚ),
      AllOrNothing cfg e ctx cost now ↔ SharedRoom cfg e ctx cost now) ∧
    ∀ (cfg : Config Ctx ε Fusable) (db : Db) (ctx : Ctx) (cost : ℚ) (r : Reading),
      FusedApart cfg db ctx cost r → FusedAllOrNothing cfg db ctx cost r :=
  ⟨checkSync_allOrNothing_iff, fun _ _ _ _ _ => fusedAllOrNothing_of_apart⟩

/-- A window of one request per second, that works in place on nothing. -/
def oneInWindow [Rounding] : InPlace FixedWindow.State where
  toStrategy := FixedWindow.fixedWindow ⟨1, 1000, unit_pos, second_pos⟩
  leaves s _ _ := s
  leaves_eq _ _ _ _ := rfl

/-- One request per second and no burst. -/
def onePaced : Fusable := ⟨"gcra", some (.gcra ⟨1, 1000, 1, unit_pos, second_pos, one_le_unit⟩)⟩

/-- Two tokens a second. -/
def twoTokens : Fusable := ⟨"tokenBucket", some (.tokenBucket ⟨2, 2, pair_pos, pair_pos⟩)⟩

/-- The name of the one dimension and the raw key of the other make the same full key. -/
def colliding {A : Type} (strategy : A) : Config Unit Empty A where
  mode := .all
  dimensions := [⟨"a:b", fun _ => .ok "c", strategy, none⟩,
    ⟨"a", fun _ => .ok "b:c", strategy, none⟩]
  keyPrefix := none
  nonempty := List.cons_ne_nil _ _

/-- A dimension for the address and one, of twice the weight, for the user. -/
def addressAndUser {A : Type} (address user : A) : Config Unit Empty A where
  mode := .all
  dimensions := [⟨"ip", fun _ => .ok "10.0.0.1", address, none⟩,
    ⟨"user", fun _ => .ok "u1", user, some fun _ => .ok 2⟩]
  keyPrefix := some "tk"
  nonempty := List.cons_ne_nil _ _

instance {Ctx ε σ : Type} (cfg : Config Ctx ε (InPlace σ)) (e : Entries σ) (ctx : Ctx)
    (cost now : ℚ) : Decidable (@SharedRoom _ _ _ doubles cfg e ctx cost now) :=
  @SharedRoom.decidable _ _ _ doubles cfg e ctx cost now

instance (cfg : Config Ctx ε Fusable) (db : Db) (ctx : Ctx) (cost : ℚ) (r : Reading) :
    Decidable (@FusedApart _ _ doubles cfg db ctx cost r) :=
  @FusedApart.decidable _ _ doubles cfg db ctx cost r

/-- Dimensions with a key each: in process the user's weight is more than its window takes, so that
nothing is consumed; on Redis both are. -/
theorem multi_all_or_nothing_addressAndUser :
    @AllOrNothing _ _ _ doubles (addressAndUser (@oneInWindow doubles) (@oneInWindow doubles))
        .empty () 1 0 ∧
      @FusedAllOrNothing _ _ doubles (addressAndUser onePaced twoTokens) (fun _ => none) () 1
        ⟨1, 3 / 2⟩ :=
  ⟨((@multi_all_or_nothing doubles Unit Empty FixedWindow.State).1
      (addressAndUser (@oneInWindow doubles) (@oneInWindow doubles)) .empty () 1 0).mpr
      (by decide +kernel),
    (@multi_all_or_nothing doubles Unit Empty FixedWindow.State).2
      (addressAndUser onePaced twoTokens) (fun _ => none) () 1 ⟨1, 3 / 2⟩ (by decide +kernel)⟩

/-- Two dimensions of one full key, with room for one request: in process the second is denied its
charge after the composite has allowed, on Redis it overwrites the first. -/
theorem not_multi_all_or_nothing :
    (¬ ∀ (cfg : Config Unit Empty (InPlace FixedWindow.State)) (e : Entries FixedWindow.State)
      (ctx : Unit) (cost now : ℚ), @AllOrNothing _ _ _ doubles cfg e ctx cost now) ∧
    ¬ ∀ (cfg : Config Unit Empty Fusable) (db : Db) (ctx : Unit) (cost : ℚ) (r : Reading),
      @FusedAllOrNothing _ _ doubles cfg db ctx cost r :=
  ⟨fun h => absurd ((@checkSync_allOrNothing_iff _ _ _ doubles _ _ _ _ _).mp
      (h (colliding (@oneInWindow doubles)) .empty () 1 0)) (by decide +kernel),
    fun h => absurd (@isSome_of_fusedAllOrNothing _ _ doubles _ _ _ _ _
      (h (colliding onePaced) (fun _ => none) () 1 ⟨1, 1⟩) (by decide +kernel))
      (by decide +kernel)⟩

end ThrottleKit.Multi
