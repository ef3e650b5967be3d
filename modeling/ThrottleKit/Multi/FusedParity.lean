import ThrottleKit.Multi.Cells

/-!
# A composite in process and on Redis

The same dimensions are evaluated in one turn in process, and in one script on Redis. Three
conditions keep the states alike: no two dimensions ever come to one full key, since in process a
shared entry is charged one dimension after the other and on Redis the last write stands; the keys
of the server hold what matters of the states in process; and so do the entries in process, which
expire by the times that are computed for them.

The reply is then the decision but for what the script does not round. It compares what windows have
left before it is rounded down, so that it may report another dimension; and a limit or an end with
a fraction loses it.

## Main definitions

* `onRedis`, `inProcess` — the checks of a composite
* `KeysApart`, `KeptAlike`, `Held` — the conditions on the keys and on the states
* `Rounds` — the condition on what is reported

## Main results

* `composite_eq_iff` — the replies are the decisions in process just where they are rounded to them
-/

namespace ThrottleKit.Multi

open Lockstep Redis Rounding

variable {Ctx ε A B : Type}

/-! ### One composite in two forms -/

/-- A dimension with something else to enforce it. -/
def Dimension.map (f : A → B) (dim : Dimension Ctx ε A) : Dimension Ctx ε B :=
  ⟨dim.name, dim.key, f dim.strategy, dim.cost⟩

def Config.map (f : A → B) (cfg : Config Ctx ε A) : Config Ctx ε B where
  mode := cfg.mode
  dimensions := cfg.dimensions.map (·.map f)
  keyPrefix := cfg.keyPrefix
  nonempty := by simpa using cfg.nonempty

def Charge.map (f : A → B) (c : Charge A) : Charge B := ⟨c.key, f c.strategy, c.cost⟩

/-- The strategy, for the script. -/
def Kind.fusable (kind : Kind) : Fusable where
  name := match kind with
    | .gcra cfg => (Gcra.gcra cfg).name
    | .tokenBucket cfg => (TokenBucket.tokenBucket cfg).name
    | .fixedWindow cfg => (FixedWindow.fixedWindow cfg).name
  kind := some kind

/-- The strategy in process. It leaves the object it is handed alone. -/
def Kind.inPlace [Rounding] (foreign : Foreign) (kind : Kind) : InPlace Cell where
  name := kind.fusable.name
  limit := match kind with
    | .gcra cfg => (Gcra.gcra cfg).limit
    | .tokenBucket cfg => (TokenBucket.tokenBucket cfg).limit
    | .fixedWindow cfg => (FixedWindow.fixedWindow cfg).limit
  ttlMs := match kind with
    | .gcra cfg => (Gcra.gcra cfg).ttlMs
    | .tokenBucket cfg => (TokenBucket.tokenBucket cfg).ttlMs
    | .fixedWindow cfg => (FixedWindow.fixedWindow cfg).ttlMs
  check := kind.check foreign
  leaves state _ _ := state
  leaves_eq _ _ _ _ := rfl

theorem chargeOf_map [Rounding] (f : A → B) (keyPrefix : Option String) (ctx : Ctx) (cost : ℚ)
    (dim : Dimension Ctx ε A) :
    chargeOf keyPrefix ctx cost (dim.map f)
      = (chargeOf keyPrefix ctx cost dim).map (Charge.map f) := by
  rw [chargeOf, chargeOf]
  have hcost : dimCost (dim.map f) ctx cost = dimCost dim ctx cost := rfl
  have hkey : (dim.map f).key = dim.key := rfl
  rw [hcost, hkey]
  cases (dim.key ctx).mapError (Failure.thrown (ε := ε)) with
  | error error => rfl
  | ok raw => cases dimCost dim ctx cost <;> rfl

theorem gather_map [Rounding] (f : A → B) (keyPrefix : Option String)
    (dims : List (Dimension Ctx ε A))
    (ctx : Ctx) (cost : ℚ) :
    gather keyPrefix (dims.map (·.map f)) ctx cost
      = (gather keyPrefix dims ctx cost).map (List.map (Charge.map f)) := by
  rw [gather, gather]
  induction dims with
  | nil => rfl
  | cons dim dims ih =>
    rw [List.map_cons, List.mapM_cons, List.mapM_cons, ih, chargeOf_map]
    cases chargeOf keyPrefix ctx cost dim with
    | error error => rfl
    | ok c => cases List.mapM (chargeOf keyPrefix ctx cost) dims <;> rfl

theorem encodeDim_fusable (dims : List (Dimension Ctx ε Kind)) :
    (dims.map (·.map Kind.fusable)).mapM encodeDim = .ok dims := by
  induction dims with
  | nil => rfl
  | cons dim dims ih =>
    rw [List.map_cons, List.mapM_cons, ih]
    rfl

/-- A check of a composite, with the clock of the server and the first argument of the script. -/
structure Request (Ctx : Type) where
  server : ℤ
  nowArg : ℚ
  now : ℚ
  ctx : Ctx
  cost : ℚ

/-- What the script goes by. -/
def Request.reading (q : Request Ctx) : Reading := ⟨q.server, luaNow q.server q.nowArg⟩

/-- The answer in process, as Redis is to give it. -/
def replied (answer : Except (Failure ε) Decision × Option ℕ) :
    Except (Failure ε) (Option Decision) × Option ℕ := (answer.1.map some, answer.2)

/-! ### What a reply rounds -/

/-- What is reported of a dimension is rounded to the result in process: its limit is whole, its end
is whole or that of a window before the epoch, and 64 bits hold these, what is left and, where the
composite denies, the time to wait. -/
def Rounded (kind : Kind) (allows : Bool) (d : Decision) : Prop :=
  (Whole d.limit ∧ Fits d.limit) ∧ Fits ⌊d.remaining⌋ ∧
    ((luaInteger d.resetAt : ℚ) = kind.endOf d.resetAt ∧ Fits (kind.endOf d.resetAt)) ∧
      (allows = false → Fits d.retryAfterMs)

instance (kind : Kind) (allows : Bool) (d : Decision) : Decidable (Rounded kind allows d) :=
  inferInstanceAs (Decidable (_ ∧ _ ∧ _ ∧ (_ → _)))

/-- The reply of a script in whole numbers. -/
def truncated (d : Decision) : Decision :=
  ⟨d.allowed, luaInteger d.limit, luaInteger d.remaining, luaInteger d.resetAt,
    luaInteger d.retryAfterMs⟩

/-- **When a reply is the decision**, where both report one dimension. -/
theorem reply_iff {kind : Kind} {l d : Decision} (allows : Bool) (h : Alike l d)
    (hreset : kind.endOf l.resetAt = d.resetAt) :
    longLongs (truncated (if allows then granted l else refused l))
        = some (if allows then granted d else refused d) ↔ Rounded kind allows l := by
  have hremaining : (luaInteger l.remaining : ℚ) = d.remaining := by
    rw [luaInteger, if_pos h.nonneg]
    exact h.remaining
  have hretry : (luaInteger l.retryAfterMs : ℚ) = l.retryAfterMs :=
    luaInteger_eq_iff.mpr h.retryAfterMs_whole
  rw [Rounded, hreset, h.remaining]
  cases allows with
  | true =>
    have hreply : truncated (granted l)
        = ⟨true, luaInteger l.limit, d.remaining, luaInteger l.resetAt, 0⟩ := by
      rw [truncated, granted]
      dsimp only
      rw [hremaining]
      rfl
    have hdecision : granted d = ⟨true, l.limit, d.remaining, d.resetAt, 0⟩ := by
      rw [granted, h.limit]
    rw [if_pos rfl, if_pos rfl, hreply, hdecision, longLongs_eq_some_iff]
    exact and_congr_right fun _ => and_congr_right fun _ => and_congr_right fun _ =>
      iff_of_true Gcra.fits_zero fun hdenies => absurd hdenies.symm Bool.false_ne_true
  | false =>
    have hreply : truncated (refused l)
        = ⟨false, luaInteger l.limit, d.remaining, luaInteger l.resetAt, l.retryAfterMs⟩ := by
      rw [truncated, refused]
      dsimp only
      rw [hremaining, hretry]
    have hdecision : refused d = ⟨false, l.limit, d.remaining, d.resetAt, l.retryAfterMs⟩ := by
      rw [refused, h.limit, h.retryAfterMs]
    rw [if_neg Bool.false_ne_true, if_neg Bool.false_ne_true, hreply, hdecision,
      longLongs_eq_some_iff]
    exact and_congr_right fun _ => and_congr_right fun _ => and_congr_right fun _ =>
      ⟨fun hfits _ => hfits, fun hfits => hfits rfl⟩

/-! ### The checks of a composite -/

section Composite

variable [Rounding] (cfg : Config Ctx ε Kind) (foreign : Foreign)

/-- What a request asks of each dimension. -/
def asked (q : Request Ctx) : Except (Failure ε) (List (Charge Kind)) := do
  (requireCost q.cost).mapError .badCost
  gather cfg.keyPrefix cfg.dimensions q.ctx q.cost

theorem fusedCharges_eq (q : Request Ctx) :
    fusedCharges (cfg.map Kind.fusable) q.ctx q.cost = asked cfg q := by
  rw [fusedCharges, asked]
  have hencode : (cfg.map Kind.fusable).dimensions.mapM encodeDim = .ok cfg.dimensions :=
    encodeDim_fusable cfg.dimensions
  cases requireCost q.cost with
  | error error => rfl
  | ok _ =>
    rw [hencode]
    rfl

theorem chargesOf_eq (q : Request Ctx) :
    chargesOf (cfg.map (Kind.inPlace foreign)) q.ctx q.cost
      = (asked cfg q).map (List.map (Charge.map (Kind.inPlace foreign))) := by
  rw [chargesOf, asked]
  cases requireCost q.cost with
  | error error => rfl
  | ok _ => exact gather_map _ _ _ _ _

/-- The dimension that a check on Redis reports. -/
def reportedOnRedis (db : Db) (q : Request Ctx) : Option ℕ :=
  (asked cfg q).toOption.bind fun cs => (probes db q.reading cs).map fun ps =>
    (reported cfg.mode (ps.map (·.result))).2

/-- The dimension that a check in process reports. -/
def reportedInProcess (e : Entries Cell) (q : Request Ctx) : Option ℕ :=
  (chargesOf (cfg.map (Kind.inPlace foreign)) q.ctx q.cost).toOption.map fun cs =>
    (reported cfg.mode ((cs.map (probe e q.now)).map (·.result))).2

/-- The checks on Redis: the reply, if 64 bits hold it, and the dimension it reports. -/
def onRedis : Service Db (Request Ctx) (Except (Failure ε) (Option Decision) × Option ℕ) :=
  fun db q =>
    let out := checkAt (cfg.map Kind.fusable) db q.ctx q.cost q.reading
    (out.1, (out.2.map longLongs, reportedOnRedis cfg db q))

/-- The checks in process: the decision, and the dimension it reports. -/
def inProcess : Service (Entries Cell) (Request Ctx) (Except (Failure ε) Decision × Option ℕ) :=
  fun e q =>
    let out := checkSync (cfg.map (Kind.inPlace foreign)) e q.ctx q.cost q.now
    (out.1, (out.2, reportedInProcess cfg foreign e q))

/-! ### The charges of a check -/

theorem forall₂_of_gather {keyPrefix : Option String} {ctx : Ctx} {cost : ℚ} :
    ∀ {dims : List (Dimension Ctx ε A)} {cs : List (Charge A)},
      gather keyPrefix dims ctx cost = .ok cs →
      List.Forall₂ (fun dim c => chargeOf keyPrefix ctx cost dim = .ok c) dims cs
  | [], cs, h => by
    obtain rfl : [] = cs := Except.ok.inj h
    exact .nil
  | dim :: dims, cs, h => by
    rw [gather, List.mapM_cons] at h
    cases hc : chargeOf keyPrefix ctx cost dim with
    | error error =>
      rw [hc] at h
      cases h
    | ok c =>
      cases hcs : gather keyPrefix dims ctx cost with
      | error error =>
        rw [gather] at hcs
        rw [hc, hcs] at h
        cases h
      | ok cs' =>
        have hrest := forall₂_of_gather hcs
        rw [gather] at hcs
        rw [hc, hcs] at h
        obtain rfl := Except.ok.inj h
        exact .cons hc hrest

/-- A charge is of the strategy of its dimension. -/
theorem of_chargeOf {keyPrefix : Option String} {ctx : Ctx} {cost : ℚ} {dim : Dimension Ctx ε A}
    {c : Charge A} (h : chargeOf keyPrefix ctx cost dim = .ok c) : c.strategy = dim.strategy := by
  rw [chargeOf] at h
  cases hkey : (dim.key ctx).mapError (Failure.thrown (ε := ε)) with
  | error error =>
    rw [hkey] at h
    cases h
  | ok raw =>
    rw [hkey] at h
    cases hcost : dimCost dim ctx cost with
    | error error =>
      rw [hcost] at h
      cases h
    | ok amount =>
      rw [hcost] at h
      obtain rfl := Except.ok.inj h
      rfl

/-- What each charge of a check came from. -/
theorem exists_dimension {keyPrefix : Option String} {ctx : Ctx} {cost : ℚ}
    {dims : List (Dimension Ctx ε A)} {cs : List (Charge A)}
    (h : gather keyPrefix dims ctx cost = .ok cs) {i : ℕ} {c : Charge A} (hc : cs[i]? = some c) :
    ∃ dim, dims[i]? = some dim ∧ c.strategy = dim.strategy := by
  have hall := forall₂_of_gather h
  obtain ⟨hi, rfl⟩ := List.getElem?_eq_some_iff.mp hc
  have hi' : i < dims.length := hall.length_eq.symm ▸ hi
  exact ⟨dims[i], List.getElem?_eq_getElem hi', of_chargeOf (hall.get hi' hi)⟩

theorem asked_eq_ok {q : Request Ctx} {cs : List (Charge Kind)} (h : asked cfg q = .ok cs) :
    gather cfg.keyPrefix cfg.dimensions q.ctx q.cost = .ok cs := by
  rw [asked] at h
  cases hcost : requireCost q.cost with
  | error error =>
    rw [hcost] at h
    cases h
  | ok _ =>
    rw [hcost] at h
    exact h

theorem asked_ne_nil {q : Request Ctx} {cs : List (Charge Kind)} (h : asked cfg q = .ok cs) :
    cs ≠ [] := by
  have hlength := (forall₂_of_gather (asked_eq_ok cfg h)).length_eq
  intro hnil
  rw [hnil, List.length_nil] at hlength
  exact cfg.nonempty (List.length_eq_zero_iff.mp hlength)

/-! ### The conditions -/

/-- No two dimensions ever come to one full key. -/
def KeysApart (qs : List (Request Ctx)) : Prop :=
  ∀ q ∈ qs, ∀ q' ∈ qs, ∀ cs ∈ (asked cfg q).toOption, ∀ cs' ∈ (asked cfg q').toOption,
    ∀ c ∈ cs.zipIdx, ∀ c' ∈ cs'.zipIdx, c.1.key = c'.1.key → c.2 = c'.2

instance KeysApart.decidable (qs : List (Request Ctx)) : Decidable (KeysApart cfg qs) :=
  inferInstanceAs (Decidable (∀ q ∈ qs, ∀ q' ∈ qs, ∀ cs ∈ (asked cfg q).toOption,
    ∀ cs' ∈ (asked cfg q').toOption, ∀ c ∈ cs.zipIdx, ∀ c' ∈ cs'.zipIdx, _ → _))

/-- **The condition on the state in Redis.** The script goes by the time of the check, no key of a
dimension has expired while it matters, and what is written is there to be found. -/
def KeptAlike (db : Db) (q : Request Ctx) : Prop :=
  q.reading.now = q.now ∧ ∀ cs ∈ (asked cfg q).toOption,
    (∀ c ∈ cs, ∀ k ∈ db c.key, k.live q.server = false → c.strategy.Stale k.value q.now) ∧
      ∀ ps ∈ probes db q.reading cs, ∀ c ∈ consumed cfg.mode ps, ReadsBack db q.reading c

instance KeptAlike.decidable (db : Db) (q : Request Ctx) : Decidable (KeptAlike cfg db q) :=
  inferInstanceAs (Decidable (_ ∧ ∀ cs ∈ (asked cfg q).toOption,
    (∀ c ∈ cs, ∀ k ∈ db c.key, k.live q.server = false → _) ∧
      ∀ ps ∈ probes db q.reading cs, ∀ c ∈ consumed cfg.mode ps, _))

/-- **The condition on the state in process.** No entry of a dimension has expired while it
matters. -/
def Held (e : Entries Cell) (q : Request Ctx) : Prop :=
  ∀ cs ∈ (asked cfg q).toOption, ∀ c ∈ cs, ∀ x ∈ e c.key, x.2 ≤ q.now →
    c.strategy.Stale x.1.value q.now

instance Held.decidable (e : Entries Cell) (q : Request Ctx) : Decidable (Held cfg e q) :=
  inferInstanceAs (Decidable (∀ cs ∈ (asked cfg q).toOption, ∀ c ∈ cs, ∀ x ∈ e c.key, _ → _))

/-- **The condition on what is reported.** None of the dimensions before the one that is reported
has as much left, rounded down; and that one is rounded to itself. -/
def Rounds (db : Db) (q : Request Ctx) : Prop :=
  ∀ cs ∈ (asked cfg q).toOption, ∀ ps ∈ probes db q.reading cs,
    Untied cfg.mode (ps.map (·.result)) ∧
      ∀ c ∈ cs[(reported cfg.mode (ps.map (·.result))).2]?,
        Rounded c.strategy (cfg.mode.allows (ps.map (·.result)))
          (reported cfg.mode (ps.map (·.result))).1

instance Rounds.decidable (db : Db) (q : Request Ctx) : Decidable (Rounds cfg db q) :=
  inferInstanceAs (Decidable (∀ cs ∈ (asked cfg q).toOption, ∀ ps ∈ probes db q.reading cs,
    Untied cfg.mode (ps.map (·.result)) ∧
      ∀ c ∈ cs[(reported cfg.mode (ps.map (·.result))).2]?,
        Rounded c.strategy (cfg.mode.allows (ps.map (·.result)))
          (reported cfg.mode (ps.map (·.result))).1))

/-! ### One state in two stores -/

section Step

variable {cfg foreign} {owner : String → Kind} {db : Db} {e : Entries Cell} {q : Request Ctx}
  {now : ℚ} {server : ℤ} {key : String}

/-- The server holds the states in process, each left by the strategy that owns its key. -/
structure Same (owner : String → Kind) (db : Db) (e : Entries Cell) : Prop where
  value : ∀ key, (db key).map Key.value = (e key).map fun x => x.1.value
  leaves : ∀ key, ∀ x ∈ e key, (owner key).Leaves x.1

/-- What the script finds acts as the state in process. -/
theorem Same.found (foreign : Foreign) (h : Same owner db e)
    (hkept : ∀ k ∈ db key, k.live server = false → (owner key).Stale k.value now)
    (hheld : ∀ x ∈ e key, x.2 ≤ now → (owner key).Stale x.1.value now) :
    ∃ v : Option Cell, Redis.read (db key) server = v.map Cell.value ∧
      (∀ c ∈ v, (owner key).Leaves c) ∧
      SameAt ((owner key).check foreign) now (e.pending key now) v := by
  have hvalue := h.value key
  rw [Entries.pending]
  cases hentry : e key with
  | none =>
    rw [hentry] at hvalue
    rw [Option.map_eq_none_iff.mp hvalue]
    exact ⟨none, rfl, by simp, fun _ => rfl⟩
  | some x =>
    rw [hentry] at hvalue
    obtain ⟨k, hk, hkv⟩ := Option.map_eq_some_iff.mp hvalue
    have hleaves : (owner key).Leaves x.1 := h.leaves key x hentry
    have hpending : SameAt ((owner key).check foreign) now
        ((some x).bind fun entry => if entry.2 ≤ now then none else some entry.1) (some x.1) := by
      rw [Option.bind_some]
      split
      · rename_i hdue
        exact fun cost => (sameAt_of_stale hleaves (hheld x hentry hdue) cost).symm
      · exact fun _ => rfl
    rw [hk, Redis.read, Option.bind_some]
    cases hlive : k.live server with
    | true =>
      refine ⟨some x.1, by rw [if_pos rfl, hkv]; rfl, fun c hc => ?_, hpending⟩
      exact Option.some.inj hc ▸ hleaves
    | false =>
      have hstale := hkept k hk hlive
      rw [hkv] at hstale
      exact ⟨none, rfl, by simp, fun cost =>
        (hpending cost).trans (sameAt_of_stale hleaves hstale cost)⟩

/-- The charge as it is made in process. -/
def Charge.inPlace (foreign : Foreign) (c : Charge Kind) : Charge (InPlace Cell) :=
  c.map (Kind.inPlace foreign)

/-- What the script evaluates a charge to, beside what is probed of it in process. -/
structure Probed (foreign : Foreign) (db : Db) (e : Entries Cell) (r : Reading) (c : Charge Kind)
    (d : Decision) (w : Option Write) : Prop where
  evaluated : evaluated db r c = some (d, w)
  alike : Alike d (probe e r.now (c.inPlace foreign)).result
  resetAt : c.strategy.endOf d.resetAt = (probe e r.now (c.inPlace foreign)).result.resetAt
  asks : w.isSome = (probe e r.now (c.inPlace foreign)).asks
  writes : ∀ w', w = some w' → ∃ cell,
    ((c.inPlace foreign).run (e.pending c.key r.now) r.now).state = some cell ∧
      c.strategy.Leaves cell ∧ (0 < w'.px →
        put id r.server (Redis.read (db c.key) r.server) w'
          = some (some (Redis.writePx r.server cell.value w'.px)))

/-- **One dimension, in the script and in process.** -/
theorem Same.probed (foreign : Foreign) (h : Same owner db e) {r : Reading} {c : Charge Kind}
    (hown : c.strategy = owner c.key)
    (hkept : ∀ k ∈ db c.key, k.live r.server = false → c.strategy.Stale k.value r.now)
    (hheld : ∀ x ∈ e c.key, x.2 ≤ r.now → c.strategy.Stale x.1.value r.now) :
    ∃ d w, Probed foreign db e r c d w := by
  rw [hown] at hkept hheld
  obtain ⟨v, hread, hv, hsame⟩ := h.found foreign hkept hheld
  rw [← hown] at hv hsame
  obtain ⟨d, w, heval, hbranch⟩ := evalDim_eq foreign c.strategy r.now c.cost hv
  have hresult : (probe e r.now (c.inPlace foreign)).result
      = (c.strategy.check foreign v r.now c.cost).result := hsame.result_eq c.cost
  have hpersist : (probe e r.now (c.inPlace foreign)).asks
      = (c.strategy.check foreign v r.now c.cost).persist := hsame.persist_eq c.cost
  refine ⟨d, w, ⟨by rw [Multi.evaluated, hread]; exact heval, ?_, ?_, ?_, fun w' hw => ?_⟩⟩
  · rw [hresult]
    exact hbranch.alike
  · rw [hresult]
    exact hbranch.resetAt
  · rw [hpersist]
    exact hbranch.asks
  · have hp : (c.strategy.check foreign v r.now c.cost).persist = true := by
      rw [← hbranch.asks, hw]
      rfl
    obtain ⟨cell, hcell, hleaves⟩ := hbranch.leaves hp
    rw [hread]
    exact ⟨cell, (hsame.write_eq hp hcell).2.1, hleaves, hbranch.writes w' cell r.server hw hcell⟩

/-- **One write, on the server and in process.** -/
theorem Same.write (h : Same owner db e) {r : Reading} {c : Charge Kind} {d : Decision}
    {w : Write} (hown : c.strategy = owner c.key) (hprobed : Probed foreign db e r c d (some w))
    (hpx : 0 < w.px) :
    ∃ k, put id r.server (Redis.read (db c.key) r.server) w = some k ∧
      Same owner (Function.update db c.key k) (commit r.now e (c.inPlace foreign)) := by
  obtain ⟨cell, hstate, hleaves, hput⟩ := hprobed.writes w rfl
  refine ⟨_, hput hpx, ?_⟩
  have hpersist : ((c.inPlace foreign).run (e.pending c.key r.now) r.now).persist = true :=
    hprobed.asks.symm
  have hentries : commit r.now e (c.inPlace foreign) = Function.update e c.key (some (cell,
      fl (r.now + max 0 ((c.inPlace foreign).run (e.pending c.key r.now) r.now).ttlMs))) := by
    rw [commit_eq, Entries.applySync_of_persist_rounded hpersist]
    exact congrArg (Function.update e c.key) (congrArg (Option.map _) hstate)
  rw [hentries]
  constructor
  · intro key
    by_cases hkey : key = c.key
    · rw [hkey, Function.update_self, Function.update_self]
      rfl
    · rw [Function.update_of_ne hkey, Function.update_of_ne hkey]
      exact h.value key
  · intro key x hx
    by_cases hkey : key = c.key
    · rw [hkey, Function.update_self] at hx
      rw [hkey, ← hown, ← Option.some.inj hx]
      exact hleaves
    · rw [Function.update_of_ne hkey] at hx
      exact h.leaves key x hx

/-- A write elsewhere changes nothing of what a charge is evaluated to, nor of what is probed. -/
theorem Probed.of_ne {r : Reading} {c c' : Charge Kind} {d : Decision} {w : Option Write}
    {k : Option (Redis.Key Value)} (hne : c.key ≠ c'.key) (h : Probed foreign db e r c d w) :
    Probed foreign (Function.update db c'.key k) (commit r.now e (c'.inPlace foreign)) r c d w := by
  have hdb : Function.update db c'.key k c.key = db c.key := Function.update_of_ne hne _ _
  have hpending : (commit r.now e (c'.inPlace foreign)).pending c.key r.now
      = e.pending c.key r.now := by
    rw [commit_eq]
    exact Entries.pending_applySync_of_ne hne
  have hprobe : probe (commit r.now e (c'.inPlace foreign)) r.now (c.inPlace foreign)
      = probe e r.now (c.inPlace foreign) := by
    rw [probe, probe]
    exact congrArg (fun state => (⟨_, ((c.inPlace foreign).run state r.now).result,
      ((c.inPlace foreign).run state r.now).persist⟩ : Probe (InPlace Cell))) hpending
  refine ⟨?_, hprobe ▸ h.alike, hprobe ▸ h.resetAt, hprobe ▸ h.asks, ?_⟩
  · rw [Multi.evaluated, hdb]
    exact h.evaluated
  · rw [hdb, hpending]
    exact h.writes

/-- **All writes of a check**, whose keys are apart. -/
theorem Same.writeAll {db₀ : Db} {r : Reading} : ∀ (cs : List (Charge Kind)) {db : Db}
    {e : Entries Cell}, Same owner db e → (∀ c ∈ cs, c.strategy = owner c.key) →
    (cs.Pairwise fun c c' => c.key ≠ c'.key) → (∀ c ∈ cs, ReadsBack db₀ r c) →
    (∀ c ∈ cs, ∃ d w, Multi.evaluated db₀ r c = some (d, some w) ∧
      Probed foreign db e r c d (some w)) →
    ∃ db', Multi.writeAll db₀ r db cs = (db', true) ∧
      Same owner db' ((cs.map (Charge.inPlace foreign)).foldl (commit r.now) e)
  | [], db, e, h, _, _, _, _ => ⟨db, rfl, h⟩
  | c :: cs, db, e, h, hown, hkeys, hback, hprobed => by
    obtain ⟨hhead, htail⟩ := List.pairwise_cons.mp hkeys
    obtain ⟨d, w, heval, hc⟩ := hprobed c List.mem_cons_self
    have hpx : 0 < w.px := (hback c List.mem_cons_self w (by rw [heval]; rfl)).2
    obtain ⟨k, hput, hsame⟩ := h.write (hown c List.mem_cons_self) hc hpx
    have hback' : put (fl ∘ Redis.readBack) r.server (Redis.read (db c.key) r.server) w = some k :=
      (put_of_readsBack heval (hback c List.mem_cons_self)).trans hput
    obtain ⟨db', hwrite, hnext⟩ := Same.writeAll cs hsame
      (fun c' hc' => hown c' (List.mem_cons_of_mem _ hc')) htail
      (fun c' hc' => hback c' (List.mem_cons_of_mem _ hc')) fun c' hc' => by
        obtain ⟨d', w', heval', hc''⟩ := hprobed c' (List.mem_cons_of_mem _ hc')
        exact ⟨d', w', heval', hc''.of_ne (hhead c' hc').symm⟩
    refine ⟨db', ?_, hnext⟩
    have hasks : (Multi.evaluated db₀ r c).bind Prod.snd = some w := by
      rw [heval]
      rfl
    simp only [Multi.writeAll, hasks, hback', hwrite]

/-! ### One check -/

/-- What the script says of a charge that can be evaluated. -/
def said (db : Db) (r : Reading) (c : Charge Kind) : Decision × Option Write :=
  (evaluated db r c).getD (⟨false, 0, 0, 0, 0⟩, none)

/-- What the script says of a charge, and what is said of it in process. -/
def saidTwice (foreign : Foreign) (db : Db) (e : Entries Cell) (r : Reading) (c : Charge Kind) :
    Decision × Decision :=
  ((said db r c).1, (probe e r.now (c.inPlace foreign)).result)

/-- Each charge is evaluated as it is probed. -/
def AllProbed (foreign : Foreign) (db : Db) (e : Entries Cell) (r : Reading)
    (cs : List (Charge Kind)) : Prop :=
  ∀ c ∈ cs, Probed foreign db e r c (said db r c).1 (said db r c).2

theorem Same.allProbed (h : Same owner db e) {r : Reading} {cs : List (Charge Kind)}
    (hown : ∀ c ∈ cs, c.strategy = owner c.key)
    (hkept : ∀ c ∈ cs, ∀ k ∈ db c.key, k.live r.server = false → c.strategy.Stale k.value r.now)
    (hheld : ∀ c ∈ cs, ∀ x ∈ e c.key, x.2 ≤ r.now → c.strategy.Stale x.1.value r.now) :
    AllProbed foreign db e r cs := by
  intro c hc
  obtain ⟨d, w, hprobed⟩ := h.probed foreign (hown c hc) (hkept c hc) (hheld c hc)
  rw [said, hprobed.evaluated]
  exact hprobed

section Charges

variable {r : Reading} {cs : List (Charge Kind)} {mode : Mode}

theorem probes_eq : ∀ {cs : List (Charge Kind)}, AllProbed foreign db e r cs →
    probes db r cs
      = some (cs.map fun c => ⟨c, (said db r c).1, (said db r c).2.isSome⟩)
  | [], _ => rfl
  | c :: cs, h => by
    have ih : probes db r cs = _ := probes_eq fun c' hc' => h c' (List.mem_cons_of_mem _ hc')
    rw [probes] at ih ⊢
    rw [List.mapM_cons, ih, (h c List.mem_cons_self).evaluated]
    rfl

omit [Rounding] in
/-- The charges that are consumed, of those that were probed by `f`. -/
theorem consumed_map {K : Type} (f : Charge Kind → Probe K) (g : Charge Kind → Charge K)
    (hcharge : ∀ c ∈ cs, (f c).charge = g c) :
    consumed mode (cs.map f)
      = if mode.allows ((cs.map f).map (·.result)) then
          (cs.filter fun c => (mode = .all || (f c).result.allowed) && (f c).asks).map g
        else [] := by
  rw [consumed, combine_allowed, List.filter_map]
  split
  · rw [List.map_map]
    exact List.map_congr_left fun c hc => hcharge c (List.mem_of_mem_filter hc)
  · rfl

theorem alike_saidTwice (h : AllProbed foreign db e r cs) :
    ∀ p ∈ cs.map (saidTwice foreign db e r), Alike p.1 p.2 := by
  intro p hp
  obtain ⟨c, hc, rfl⟩ := List.mem_map.mp hp
  exact (h c hc).alike

/-- What is probed on the server. -/
def probedOnRedis (db : Db) (r : Reading) (cs : List (Charge Kind)) : List (Probe Kind) :=
  cs.map fun c => ⟨c, (said db r c).1, (said db r c).2.isSome⟩

/-- What is probed in process. -/
def probedInProcess (foreign : Foreign) (e : Entries Cell) (r : Reading)
    (cs : List (Charge Kind)) : List (Probe (InPlace Cell)) :=
  cs.map fun c => probe e r.now (c.inPlace foreign)

theorem results_onRedis (foreign : Foreign) (e : Entries Cell) :
    (probedOnRedis db r cs).map (·.result) = (cs.map (saidTwice foreign db e r)).map Prod.fst := by
  rw [probedOnRedis, List.map_map, List.map_map]
  rfl

theorem results_inProcess (db : Db) :
    (probedInProcess foreign e r cs).map (·.result)
      = (cs.map (saidTwice foreign db e r)).map Prod.snd := by
  rw [probedInProcess, List.map_map, List.map_map]
  rfl

/-- The same charges are consumed on both sides. -/
theorem consumed_inProcess (h : AllProbed foreign db e r cs) :
    consumed mode (probedInProcess foreign e r cs)
      = (consumed mode (probedOnRedis db r cs)).map (Charge.inPlace foreign) := by
  have hallows : mode.allows ((probedInProcess foreign e r cs).map (·.result))
      = mode.allows ((probedOnRedis db r cs).map (·.result)) := by
    rw [results_onRedis foreign e, results_inProcess db]
    exact allows_eq (alike_saidTwice h)
  have hleft : consumed mode (probedInProcess foreign e r cs) = _ :=
    consumed_map _ (Charge.inPlace foreign) fun _ _ => rfl
  have hright : consumed mode (probedOnRedis db r cs) = _ := consumed_map _ id fun _ _ => rfl
  have hfilter : ∀ c ∈ cs,
      ((mode = .all || (probe e r.now (c.inPlace foreign)).result.allowed)
          && (probe e r.now (c.inPlace foreign)).asks)
        = ((mode = .all || (said db r c).1.allowed) && (said db r c).2.isSome) := by
    intro c hc
    rw [(h c hc).alike.allowed, (h c hc).asks]
  rw [probedInProcess, probedOnRedis] at hallows
  rw [hleft, hright, hallows, List.filter_congr hfilter]
  split
  · rw [List.map_id]
  · rfl

/-- A charge that is consumed was probed, and asks for a write. -/
theorem of_mem_consumed {c : Charge Kind} (hc : c ∈ consumed mode (probedOnRedis db r cs)) :
    c ∈ cs ∧ (said db r c).2.isSome = true := by
  obtain ⟨p, hp, rfl, -, hasks⟩ := allowed_of_mem_consumed hc
  obtain ⟨c, hmem, rfl⟩ := List.mem_map.mp hp
  exact ⟨hmem, hasks⟩

/-- The charges that are consumed are some of those that were probed. -/
theorem consumed_sublist_charges : (consumed mode (probedOnRedis db r cs)).Sublist cs := by
  have hcharges : (probedOnRedis db r cs).map (·.charge) = cs := by
    rw [probedOnRedis, List.map_map]
    exact List.map_id cs
  have hsub := consumed_sublist mode (probedOnRedis db r cs)
  rwa [hcharges] at hsub

/-- **What a check does to the state**, on both sides. -/
theorem Same.consume (h : Same owner db e) (hprobed : AllProbed foreign db e r cs)
    (hown : ∀ c ∈ cs, c.strategy = owner c.key) (hkeys : cs.Pairwise fun c c' => c.key ≠ c'.key)
    (hback : ∀ c ∈ consumed mode (probedOnRedis db r cs), ReadsBack db r c) :
    ∃ db', Multi.writeAll db r db (consumed mode (probedOnRedis db r cs)) = (db', true) ∧
      Same owner db'
        ((consumed mode (probedInProcess foreign e r cs)).foldl (commit r.now) e) := by
  rw [consumed_inProcess hprobed]
  refine h.writeAll _ (fun c hc => hown c (of_mem_consumed hc).1)
    (hkeys.sublist consumed_sublist_charges) hback fun c hc => ?_
  obtain ⟨hmem, hasks⟩ := of_mem_consumed hc
  obtain ⟨w, hw⟩ := Option.isSome_iff_exists.mp hasks
  have hc' := hprobed c hmem
  rw [hw] at hc'
  exact ⟨_, w, hc'.evaluated, hc'⟩

/-- **When a check says the same**, and of the same dimension. -/
theorem says_iff (h : AllProbed foreign db e r cs) (hne : cs ≠ []) :
    (longLongs (truncated (combine mode ((probedOnRedis db r cs).map (·.result))))
          = some (combine mode ((probedInProcess foreign e r cs).map (·.result))) ∧
        (reported mode ((probedOnRedis db r cs).map (·.result))).2
          = (reported mode ((probedInProcess foreign e r cs).map (·.result))).2) ↔
      Untied mode ((probedOnRedis db r cs).map (·.result)) ∧
        ∀ c ∈ cs[(reported mode ((probedOnRedis db r cs).map (·.result))).2]?,
          Rounded c.strategy (mode.allows ((probedOnRedis db r cs).map (·.result)))
            (reported mode ((probedOnRedis db r cs).map (·.result))).1 := by
  have hpairs : cs.map (saidTwice foreign db e r) ≠ [] := by simpa using hne
  obtain ⟨hplace, hat⟩ := reported_pairs mode hpairs (alike_saidTwice h)
  have hallows : mode.allows ((cs.map (saidTwice foreign db e r)).map Prod.snd)
      = mode.allows ((cs.map (saidTwice foreign db e r)).map Prod.fst) :=
    allows_eq (alike_saidTwice h)
  rw [combine_eq_reported, combine_eq_reported, results_onRedis foreign e,
    results_inProcess db, hallows, ← hplace, and_comm]
  refine and_congr_right fun hsame => ?_
  obtain ⟨p, hp, hl, hr⟩ := hat hsame
  obtain ⟨c, hc, rfl⟩ : ∃ c, cs[_]? = some c ∧ saidTwice foreign db e r c = p := by
    rw [List.getElem?_map] at hp
    exact Option.map_eq_some_iff.mp hp
  have hmem : c ∈ cs := List.mem_of_getElem? hc
  rw [hc, hl, hr]
  refine (reply_iff _ (h c hmem).alike (h c hmem).resetAt).trans ?_
  exact ⟨fun hround c' hc' => Option.some.inj hc' ▸ hround, fun hround => hround c rfl⟩

end Charges

/-- Of the charges of a check, each has its owner, and a key of its own. -/
structure Owned (owner : String → Kind) (cs : List (Charge Kind)) : Prop where
  own : ∀ c ∈ cs, c.strategy = owner c.key
  keys : cs.Pairwise fun c c' => c.key ≠ c'.key

theorem checkAt_eq (db : Db) (q : Request Ctx) {cs : List (Charge Kind)}
    (hasked : asked cfg q = .ok cs) {ps : List (Probe Kind)}
    (hprobes : probes db q.reading cs = some ps) {db' : Db}
    (hwrite : Multi.writeAll db q.reading db (consumed cfg.mode ps) = (db', true)) :
    onRedis cfg db q = (db', (.ok (longLongs (truncated (combine cfg.mode (ps.map (·.result))))),
      some (reported cfg.mode (ps.map (·.result))).2)) := by
  have hcharges : fusedCharges (cfg.map Kind.fusable) q.ctx q.cost = .ok cs :=
    (fusedCharges_eq cfg q).trans hasked
  have hmode : (cfg.map Kind.fusable).mode = cfg.mode := rfl
  rw [onRedis, checkAt, hcharges, reportedOnRedis, hasked]
  dsimp only
  rw [fusedScript, hprobes, hmode]
  dsimp only
  rw [hwrite, Except.toOption, Option.bind_some, hprobes]
  rfl

theorem checkSync_eq (e : Entries Cell) (q : Request Ctx) {cs : List (Charge Kind)}
    (hasked : asked cfg q = .ok cs) (hnow : q.reading.now = q.now) :
    inProcess cfg foreign e q
      = ((consumed cfg.mode (probedInProcess foreign e q.reading cs)).foldl
          (commit q.reading.now) e,
        (.ok (combine cfg.mode ((probedInProcess foreign e q.reading cs).map (·.result))),
          some (reported cfg.mode
            ((probedInProcess foreign e q.reading cs).map (·.result))).2)) := by
  have hcharges : chargesOf (cfg.map (Kind.inPlace foreign)) q.ctx q.cost
      = .ok (cs.map (Charge.inPlace foreign)) := by
    rw [chargesOf_eq, hasked]
    rfl
  have hprobes : (cs.map (Charge.inPlace foreign)).map (probe e q.now)
      = probedInProcess foreign e q.reading cs := by
    rw [List.map_map, probedInProcess, hnow]
    rfl
  have hmode : (cfg.map (Kind.inPlace foreign)).mode = cfg.mode := rfl
  rw [inProcess, checkSync, hcharges, reportedInProcess, hcharges]
  dsimp only
  rw [hmode, Except.toOption, Option.map_some, hprobes, hnow]

/-- **One check on both sides.** -/
theorem Same.step (h : Same owner db e)
    (hcs : ∀ cs ∈ (asked cfg q).toOption, Owned owner cs) (hkept : KeptAlike cfg db q)
    (hheld : Held cfg e q) :
    ((onRedis cfg db q).2 = replied (inProcess cfg foreign e q).2 ↔ Rounds cfg db q) ∧
      Same owner (onRedis cfg db q).1 (inProcess cfg foreign e q).1 := by
  obtain ⟨hnow, hall⟩ := hkept
  cases hasked : asked cfg q with
  | error error =>
    have hredis : onRedis cfg db q = (db, (.error error, none)) := by
      rw [onRedis, checkAt, fusedCharges_eq, reportedOnRedis, hasked]
      rfl
    have hprocess : inProcess cfg foreign e q = (e, (.error error, none)) := by
      rw [inProcess, checkSync, reportedInProcess, chargesOf_eq, hasked]
      rfl
    rw [hredis, hprocess]
    refine ⟨iff_of_true rfl fun cs hcs => ?_, h⟩
    rw [hasked] at hcs
    cases hcs
  | ok cs =>
    have hmem : cs ∈ (asked cfg q).toOption := by
      rw [hasked]
      rfl
    obtain ⟨hown, hkeys⟩ := hcs cs hmem
    obtain ⟨hlive, hback⟩ := hall cs hmem
    have hdue := hheld cs hmem
    rw [← hnow] at hlive hdue
    have hprobed : AllProbed foreign db e q.reading cs := h.allProbed hown hlive hdue
    have hprobes : probes db q.reading cs = some (probedOnRedis db q.reading cs) :=
      probes_eq hprobed
    obtain ⟨db', hwrite, hsame⟩ := h.consume hprobed hown hkeys (hback _ hprobes)
    rw [checkAt_eq db q hasked hprobes hwrite, checkSync_eq e q hasked hnow]
    refine ⟨?_, hsame⟩
    rw [replied, Prod.mk.injEq, Option.some.injEq]
    have hok : ∀ {x : Option Decision} {d : Decision},
        (Except.ok x : Except (Failure ε) (Option Decision)) = (Except.ok d).map some ↔
          x = some d :=
      ⟨fun heq => Except.ok.inj heq, fun heq => congrArg Except.ok heq⟩
    rw [hok, says_iff hprobed (asked_ne_nil cfg hasked)]
    constructor
    · intro hround cs' hcs' ps hps
      rw [hasked] at hcs'
      obtain rfl := Option.some.inj hcs'
      obtain rfl := Option.some.inj (hprobes.symm.trans hps)
      exact hround
    · intro hround
      exact hround cs hmem _ hprobes

end Step

/-! ### Whole runs -/

omit [Rounding] in
theorem eq_ok_of_mem_toOption {x : Except (Failure ε) A} {a : A} (h : a ∈ x.toOption) :
    x = .ok a := by
  cases x with
  | error error => cases h
  | ok b => exact congrArg Except.ok (Option.some.inj h)

/-- A charge that some check makes. -/
def Made (qs : List (Request Ctx)) (c : Charge Kind) : Prop :=
  ∃ q ∈ qs, ∃ cs, asked cfg q = .ok cs ∧ c ∈ cs

variable {cfg}

/-- Where no two dimensions ever come to one key, charges of one key are of one strategy. -/
theorem strategy_eq_of_key_eq {qs : List (Request Ctx)} (hapart : KeysApart cfg qs)
    {c c' : Charge Kind} (hc : Made cfg qs c) (hc' : Made cfg qs c') (hkey : c.key = c'.key) :
    c.strategy = c'.strategy := by
  obtain ⟨q, hq, cs, hasked, hmem⟩ := hc
  obtain ⟨q', hq', cs', hasked', hmem'⟩ := hc'
  obtain ⟨i, hi⟩ := List.mem_iff_getElem?.mp hmem
  obtain ⟨j, hj⟩ := List.mem_iff_getElem?.mp hmem'
  have hplace : i = j := hapart q hq q' hq' cs (by rw [hasked]; rfl) cs' (by rw [hasked']; rfl)
    (c, i) (List.mem_zipIdx_iff_getElem?.mpr hi) (c', j) (List.mem_zipIdx_iff_getElem?.mpr hj) hkey
  obtain ⟨dim, hdim, hstrategy⟩ := exists_dimension (asked_eq_ok cfg hasked) hi
  obtain ⟨dim', hdim', hstrategy'⟩ := exists_dimension (asked_eq_ok cfg hasked') hj
  rw [hplace, hdim'] at hdim
  rw [hstrategy, hstrategy', Option.some.inj hdim]

/-- Each key then has an owner. -/
theorem exists_owner {qs : List (Request Ctx)} (hapart : KeysApart cfg qs) :
    ∃ owner : String → Kind, ∀ q ∈ qs, ∀ cs ∈ (asked cfg q).toOption, Owned owner cs := by
  have hchoice : ∀ key, ∃ kind, ∀ c, Made cfg qs c → c.key = key → c.strategy = kind := by
    intro key
    by_cases hmade : ∃ c, Made cfg qs c ∧ c.key = key
    · obtain ⟨c, hc, hkey⟩ := hmade
      exact ⟨c.strategy, fun c' hc' hkey' =>
        strategy_eq_of_key_eq hapart hc' hc (hkey'.trans hkey.symm)⟩
    · exact ⟨(cfg.dimensions.head cfg.nonempty).strategy, fun c hc hkey =>
        absurd ⟨c, hc, hkey⟩ hmade⟩
  choose owner howner using hchoice
  refine ⟨owner, fun q hq cs hcs => ⟨fun c hc => ?_, ?_⟩⟩
  · have hasked : asked cfg q = .ok cs := eq_ok_of_mem_toOption hcs
    exact howner c.key c ⟨q, hq, cs, hasked, hc⟩ rfl
  · refine List.pairwise_iff_getElem.mpr fun i j hi hj hlt hkey => ?_
    have hplace : i = j := hapart q hq q hq cs hcs cs hcs (cs[i], i)
      (List.mem_zipIdx_iff_getElem?.mpr (List.getElem?_eq_getElem hi)) (cs[j], j)
      (List.mem_zipIdx_iff_getElem?.mpr (List.getElem?_eq_getElem hj)) hkey
    exact absurd hplace hlt.ne

variable (cfg)

/-- **The replies on Redis are the decisions in process just where they are rounded to them**, and
report the same dimensions. This is for any dimensions in either mode, and any checks that keep the
states, if no two dimensions ever come to one key. -/
theorem composite_eq_iff {qs : List (Request Ctx)} (hapart : KeysApart cfg qs)
    (hkept : AllMet (onRedis cfg) (KeptAlike cfg) (fun _ => none) qs)
    (hheld : AllMet (inProcess cfg foreign) (Held cfg) .empty qs) :
    answers (onRedis cfg) (fun _ => none) qs
        = (answers (inProcess cfg foreign) .empty qs).map replied ↔
      AllMet (onRedis cfg) (Rounds cfg) (fun _ => none) qs := by
  obtain ⟨owner, howner⟩ := exists_owner hapart
  have hempty : Same owner (fun _ => none) .empty := ⟨fun _ => rfl, by simp [Entries.empty]⟩
  have hstep : ∀ db e q, Same owner db e →
      ((∀ cs ∈ (asked cfg q).toOption, Owned owner cs) ∧ KeptAlike cfg db q) → Held cfg e q →
      ((onRedis cfg db q).2 = replied (inProcess cfg foreign e q).2 ↔ Rounds cfg db q) ∧
        Same owner (onRedis cfg db q).1 (inProcess cfg foreign e q).1 :=
    fun db e q h hok hok' => h.step hok.1 hok.2 hok'
  exact answers_eq_map_iff hstep qs hempty (hkept.and_forall howner) hheld

/-- On one clock, the replies are the decisions, and report the same dimensions. -/
def RepliesAgree : Prop :=
  ∀ (foreign : Foreign) (qs : List (Request Ctx)), (qs.Pairwise fun q q' => q.now ≤ q'.now) →
    (∀ q ∈ qs, requireCost q.cost = .ok () ∧ q.server = q.now ∧ q.nowArg = q.now) →
    answers (onRedis cfg) (fun _ => none) qs
      = (answers (inProcess cfg foreign) .empty qs).map replied

end Composite

/-! ### In doubles -/

instance (qs : List (Request Ctx)) : Decidable (@KeysApart _ _ doubles cfg qs) :=
  @KeysApart.decidable _ _ doubles cfg qs

instance (db : Db) (q : Request Ctx) : Decidable (@KeptAlike _ _ doubles cfg db q) :=
  @KeptAlike.decidable _ _ doubles cfg db q

instance (e : Entries Cell) (q : Request Ctx) : Decidable (@Held _ _ doubles cfg e q) :=
  @Held.decidable _ _ doubles cfg e q

instance (db : Db) (q : Request Ctx) : Decidable (@Rounds _ _ doubles cfg db q) :=
  @Rounds.decidable _ _ doubles cfg db q

/-- Strategies that are never handed the state of another. -/
def noForeign : Foreign := fun _ _ _ _ => ⟨none, ⟨false, 0, 0, 0, 0⟩, 0, false⟩

/-- So many units in each second. -/
def perSecond (limit : ℚ) (h : 0 < limit) : Kind := .fixedWindow ⟨limit, 1000, h, second_pos⟩

/-- Two units a second of an address, and six tokens of a user who pays double. -/
def windowAndBucket : Config Unit Empty Kind :=
  addressAndUser (perSecond 2 pair_pos) (.tokenBucket ⟨6, 2, by decide +kernel, pair_pos⟩)

/-- Three checks of a composite: the third is denied by the window of the address. The server's
clock is the one the times are read from. -/
def threeChecks : List (Request Unit) :=
  [⟨100, 0, 100, (), 1⟩, ⟨400, 400, 400, (), 1⟩, ⟨900, 0, 900, (), 1 / 2⟩]

theorem composite_eq_threeChecks :
    answers (@onRedis _ _ doubles windowAndBucket) (fun _ => none) threeChecks
      = (answers (@inProcess _ _ doubles windowAndBucket noForeign) .empty threeChecks).map
        replied :=
  (@composite_eq_iff _ _ doubles windowAndBucket noForeign _ (by decide +kernel) (by decide +kernel)
    (by decide +kernel)).mpr (by decide +kernel)

/-- A bucket of 27 tokens, nine of which drip in each second. -/
def bucketOf27 : Config Unit Empty Kind where
  mode := .all
  dimensions := [⟨"user", fun _ => .ok "u1",
    .tokenBucket ⟨27, 9, by decide +kernel, by decide +kernel⟩, none⟩]
  keyPrefix := none
  nonempty := List.cons_ne_nil _ _

/-- Of ten units an address has 8.75 left, and of eleven a user 8.5. The script reports the user,
and a limit of eleven; in process both are 8, and the address is reported, and a limit of ten. A
bucket that was emptied three seconds ago has a little less than its 27 tokens in doubles, and the
script denies them; in process the entry is gone, and the bucket full. -/
theorem not_repliesAgree :
    (¬ @RepliesAgree _ _ doubles (addressAndUser (perSecond 10 (by decide +kernel))
      (perSecond 11 (by decide +kernel)))) ∧ ¬ @RepliesAgree _ _ doubles bucketOf27 := by
  constructor
  · intro h
    have hrun := h noForeign [⟨1, 1, 1, (), 5 / 4⟩] (by decide +kernel) (by decide +kernel)
    have hlimit := congrArg
      (List.map fun answer => answer.1.toOption.map (·.map Decision.limit)) hrun
    exact absurd hlimit (by decide +kernel)
  · intro h
    have hrun := h noForeign [⟨1, 1, 1, (), 27⟩, ⟨3001, 3001, 3001, (), 27⟩] (by decide +kernel)
      (by decide +kernel)
    have hallowed := congrArg
      (List.map fun answer => answer.1.toOption.map (·.map Decision.allowed)) hrun
    exact absurd hallowed (by decide +kernel)

end ThrottleKit.Multi
