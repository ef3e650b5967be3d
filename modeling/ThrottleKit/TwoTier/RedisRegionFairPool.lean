import ThrottleKit.Lib.Lockstep
import ThrottleKit.Redis.Script
import ThrottleKit.TwoTier.FederatedFairEscrow

/-!
# The region pool on Redis

The pool of the regions as one hash, with a field for the weight and one for the grant of each
region, that expires at the end of the window. A script grants by the arithmetic of the pool in
process.

What the hash holds is what the pool holds, fractions included. Three things differ. A reply is an
integer, so that a grant with a fraction loses it; the hash keeps it. The time until the window ends
goes to `PEXPIRE`, which takes whole milliseconds and fails for others, after the hash was written.
And the script adds up the regions in the order in which `pairs` goes through a table, which may be
any, where the pool in process adds them up in the order in which they came; rounded, the sums may
differ.

## Main definitions

* `grantLua`, `releaseLua` — the scripts
* `onRedis`, `inProcess` — the calls of both pools
* `Kept`, `Rounds` — the conditions on the state and on the reply

## Main results

* `grants_eq_iff` — the grants are the same just where they are replied as they are
* `kept_of_oneClock` — on one clock the hash does not expire while it matters
* `othersHold_of_isWhole` — whole weights and grants add up alike in every order
-/

namespace ThrottleKit.RedisRegionFairPool

open FederatedFairEscrow Lockstep Redis Rounding

/-! ### The scripts -/

/-- The hash of the pool: `ws`, and the fields `w:…` and `g:…`. -/
structure PoolHash where
  ws : Option ℚ
  weights : OrderedMap String ℚ
  granted : OrderedMap String ℚ

/-- A hash without fields. -/
def PoolHash.empty : PoolHash := ⟨none, .empty, .empty⟩

/-- What the script goes on with, once the window was rolled. -/
structure Loaded where
  key : Option (Key PoolHash)
  ws : ℚ
  weights : OrderedMap String ℚ
  granted : OrderedMap String ℚ

/-- An order in which `pairs` goes through a table. -/
structure PairsOrder where
  list : List (String × ℚ) → List (String × ℚ)
  perm : ∀ l, (list l).Perm l

/-- The order in which the entries came. -/
def PairsOrder.inserted : PairsOrder := ⟨id, fun l => .refl l⟩

/-- `granted[region]`, or zero. -/
def Loaded.myGranted (l : Loaded) (region : String) : ℚ := (l.granted.lookup region).getD 0

section Rounded

variable [Rounding]

/-- `HGETALL`, and the roll of the window. -/
def load (o : PoolOptions) (key : Option (Key PoolHash)) (server : ℤ) (now : ℚ) : Loaded :=
  let h := (read key server).getD .empty
  match h.ws with
  | none => ⟨none, startOf o.windowMs now, .empty, .empty⟩
  | some ws =>
    if fl (ws + o.windowMs) ≤ now then ⟨none, startOf o.windowMs now, .empty, .empty⟩
    else ⟨key, ws, h.weights, h.granted⟩

/-- What a region holds, or its guarantee where that is more. -/
def Loaded.held (o : PoolOptions) (l : Loaded) (totalWeight : ℚ) (r : String) (w : ℚ) : ℚ :=
  let gj : ℚ := if 0 < totalWeight then ⌊fl (fl (w * o.budget) / totalWeight)⌋ else 0
  let heldR := l.myGranted r
  if heldR < gj then gj else heldR

/-- `othersHold`, with the weight of the region among the weights. -/
def Loaded.othersHold (o : PoolOptions) (l : Loaded) (pairs : PairsOrder) (region : String)
    (weight : ℚ) : ℚ :=
  let weights := pairs.list (l.weights.set region weight).entries
  let totalWeight := sumOf (weights.map Prod.snd)
  sumOf ((weights.filter fun e => e.1 ≠ region).map fun e => l.held o totalWeight e.1 e.2)

/-- `ceiling`. -/
def Loaded.ceiling (o : PoolOptions) (l : Loaded) (pairs : PairsOrder) (region : String)
    (weight : ℚ) : ℚ :=
  let ceiling := fl (o.budget - l.othersHold o pairs region weight)
  if ceiling < l.myGranted region then l.myGranted region else ceiling

/-- The grant that is written. -/
def Loaded.newGranted (o : PoolOptions) (l : Loaded) (pairs : PairsOrder) (region : String)
    (weight wantTotal : ℚ) : ℚ :=
  -- the region already holds enough
  if wantTotal ≤ l.myGranted region then l.myGranted region
  else
    let ceiling := l.ceiling o pairs region weight
    let newGranted := if ceiling < wantTotal then ceiling else wantTotal
    if newGranted < 0 then 0 else newGranted

/-- `pexp`. -/
def Loaded.pexp (o : PoolOptions) (l : Loaded) (now : ℚ) : ℚ :=
  if fl (fl (l.ws + o.windowMs) - now) < 1 then 1 else fl (fl (l.ws + o.windowMs) - now)

/-- How a call fails. -/
inductive GrantError
  /-- An argument is not accepted. -/
  | range
  /-- `PEXPIRE` is given a fraction. -/
  | notAnInteger
  /-- 64 bits do not hold the reply; what it comes out as is not defined. -/
  | notHeld
deriving DecidableEq

/-- `GRANT_LUA`: the key it leaves, and the reply. -/
def grantLua (o : PoolOptions) (key : Option (Key PoolHash)) (server : ℤ) (now : ℚ)
    (pairs : PairsOrder) (region : String) (weight wantTotal : ℚ) :
    Option (Key PoolHash) × Except GrantError ℚ :=
  let l := load o key server now
  let newGranted := l.newGranted o pairs region weight wantTotal
  let written := write l.key server
    ⟨some l.ws, l.weights.set region weight, l.granted.set region newGranted⟩
  match pexpire written server (l.pexp o now) with
  | none => (some written, .error .notAnInteger)
  | some expiring =>
    (some expiring, if Fits newGranted then .ok (luaInteger newGranted) else .error .notHeld)

/-- `RELEASE_LUA`: the key it leaves. -/
def releaseLua (o : PoolOptions) (key : Option (Key PoolHash)) (server : ℤ) (now : ℚ)
    (region : String) : Option (Key PoolHash) :=
  match (read key server).bind (·.ws) with
  | none => none
  | some ws =>
    if fl (ws + o.windowMs) ≤ now then none
    else key.map fun k =>
      { k with value := { k.value with
          weights := k.value.weights.erase region
          granted := k.value.granted.erase region } }

/-! ### The calls of both pools -/

/-- A call of the pool. -/
inductive Op
  | grant (region : String) (weight wantTotal : ℚ)
  | release (region : String)

/-- A call at `now`, with the clock of the server, the first argument of the script, and the order
of its tables. -/
structure Visit where
  server : ℤ
  nowArg : ℚ
  now : ℚ
  pairs : PairsOrder
  op : Op

/-- The calls of `RedisRegionFairPool`. A release answers nothing. -/
def onRedis (o : PoolOptions) :
    Service (Option (Key PoolHash)) Visit (Except GrantError (Option ℚ)) := fun key v =>
  match v.op with
  | .grant region weight wantTotal =>
    if region = "" ∨ weight ≤ 0 ∨ wantTotal < 0 then (key, .error .range)
    else
      let out := grantLua o key v.server (luaNow v.server v.nowArg) v.pairs region weight wantTotal
      (out.1, out.2.map some)
  | .release region => (releaseLua o key v.server (luaNow v.server v.nowArg) region, .ok none)

/-- The calls of `regionFairPool`. -/
def inProcess (o : PoolOptions) : Service Pool Visit (Except GrantError (Option ℚ)) :=
  fun pool v =>
    match v.op with
    | .grant region weight wantTotal =>
      match grant o pool region weight wantTotal v.now with
      | none => (pool, .error .range)
      | some (p, granted) => (⟨some p, v.now⟩, .ok (some granted))
    | .release region => (pool.release o region v.now, .ok none)

/-- A call that both pools accept. -/
def Op.Accepted : Op → Prop
  | .grant region weight wantTotal => region ≠ "" ∧ 0 < weight ∧ 0 ≤ wantTotal
  | .release _ => True

instance : (op : Op) → Decidable op.Accepted
  | .grant _ _ _ => inferInstanceAs (Decidable (_ ∧ _))
  | .release _ => isTrue trivial

/-! ### The conditions -/

/-- The hash matters no longer: its window has ended, or is the one of `now` and holds nothing. -/
def Stale (o : PoolOptions) (h : PoolHash) (now : ℚ) : Prop :=
  ∀ ws ∈ h.ws, fl (ws + o.windowMs) ≤ now ∨
    ws = startOf o.windowMs now ∧ h.weights.entries = [] ∧ h.granted.entries = []

instance (o : PoolOptions) (h : PoolHash) (now : ℚ) : Decidable (Stale o h now) :=
  inferInstanceAs (Decidable (∀ ws ∈ h.ws, _ ∨ _))

/-- What the other regions hold adds up alike in the order of the tables, where a region asks for
more than it has. -/
def Summed (o : PoolOptions) (key : Option (Key PoolHash)) (v : Visit) : Prop :=
  match v.op with
  | .grant region weight wantTotal =>
    (load o key v.server v.now).myGranted region < wantTotal →
      (load o key v.server v.now).othersHold o v.pairs region weight
        = (load o key v.server v.now).othersHold o .inserted region weight
  | .release _ => True

instance (o : PoolOptions) (key : Option (Key PoolHash)) : (v : Visit) → Decidable (Summed o key v)
  | ⟨_, _, _, _, .grant _ _ _⟩ => inferInstanceAs (Decidable (_ → _ = _))
  | ⟨_, _, _, _, .release _⟩ => isTrue trivial

/-- **The condition on the state.** The script goes by the time of the call, the hash has not
expired while it matters, and the order of the tables makes no difference to a sum. -/
structure Kept (o : PoolOptions) (key : Option (Key PoolHash)) (v : Visit) : Prop where
  now_eq : luaNow v.server v.nowArg = v.now
  stale : ∀ k ∈ key, k.live v.server = false → Stale o k.value v.now
  summed : Summed o key v

instance Kept.decidable (o : PoolOptions) (key : Option (Key PoolHash)) (v : Visit) :
    Decidable (Kept o key v) :=
  decidable_of_iff (luaNow v.server v.nowArg = v.now ∧
    (∀ k ∈ key, k.live v.server = false → Stale o k.value v.now) ∧ Summed o key v)
    ⟨fun ⟨h, h', h''⟩ => ⟨h, h', h''⟩, fun ⟨h, h', h''⟩ => ⟨h, h', h''⟩⟩

omit [Rounding] in
instance (o : PoolOptions) (key : Option (Key PoolHash)) (v : Visit) :
    Decidable (@Kept doubles o key v) :=
  @Kept.decidable doubles o key v

/-- **The condition on the reply.** The time until the window ends is whole, or less than one; what
the region holds is whole, where that is enough, and the lesser of what it wants and its ceiling
where it is not; and 64 bits hold it. -/
def Rounds (o : PoolOptions) (key : Option (Key PoolHash)) (v : Visit) : Prop :=
  match v.op with
  | .grant region weight wantTotal =>
    let l := load o key v.server v.now
    Whole (l.pexp o v.now) ∧
      if wantTotal ≤ l.myGranted region then
        Whole (l.myGranted region) ∧ Fits (l.myGranted region)
      else Whole (min wantTotal (l.ceiling o .inserted region weight)) ∧
        Fits (min wantTotal (l.ceiling o .inserted region weight))
  | .release _ => True

instance Rounds.decidable (o : PoolOptions) (key : Option (Key PoolHash)) : (v : Visit) →
    Decidable (Rounds o key v)
  | ⟨_, _, _, _, .grant _ _ _⟩ => inferInstanceAs (Decidable (_ ∧ if _ ≤ _ then _ ∧ _ else _ ∧ _))
  | ⟨_, _, _, _, .release _⟩ => isTrue trivial

omit [Rounding] in
instance (o : PoolOptions) (key : Option (Key PoolHash)) (v : Visit) :
    Decidable (@Rounds doubles o key v) :=
  @Rounds.decidable doubles o key v

/-! ### One state in two layouts -/

section Step

variable {o : PoolOptions} {key : Option (Key PoolHash)} {pool : Pool} {v : Visit} {now : ℚ}
  {server : ℤ} {region : String} {weight wantTotal : ℚ}

/-- The weights and the grants of the hash are those of the pool. -/
structure Alike (ws : ℚ) (weights granted : OrderedMap String ℚ) (p : PoolWindow) : Prop where
  ws : ws = p.windowStart
  weights : weights = p.regions.mapVal (·.weight)
  granted : granted = p.regions.mapVal (·.granted)
  nonneg : ∀ name r, p.regions.lookup name = some r → 0 ≤ r.granted

/-- The window that is fresh at `now`. -/
def fresh (o : PoolOptions) (now : ℚ) : PoolWindow := ⟨startOf o.windowMs now, .empty⟩

theorem alike_fresh (o : PoolOptions) (now : ℚ) :
    Alike (startOf o.windowMs now) .empty .empty (fresh o now) :=
  ⟨rfl, rfl, rfl, fun _ _ h => by cases h⟩

/-- The hash holds the window of the pool; or there is no hash, and the pool has nothing to keep
at what follows `now`. -/
def Same (o : PoolOptions) (now : ℚ) (key : Option (Key PoolHash)) (pool : Pool) : Prop :=
  (∃ k ws p, key = some k ∧ pool.window = some p ∧ k.value.ws = some ws ∧
    Alike ws k.value.weights k.value.granted p) ∨
  (key = none ∧ ∀ t, Follows o.windowMs now t → pool.rollWindow o t = fresh o t)

theorem Same.mono {now' : ℚ} (hle : Follows o.windowMs now now') (h : Same o now key pool) :
    Same o now' key pool :=
  h.imp_right fun hnone => ⟨hnone.1, fun t ht => hnone.2 t (hle.trans ht)⟩

theorem rollWindow_of_le {p : PoolWindow} (hpool : pool.window = some p)
    (h : fl (p.windowStart + o.windowMs) ≤ now) : pool.rollWindow o now = fresh o now := by
  rw [Pool.rollWindow, hpool]
  exact if_pos h

theorem rollWindow_of_lt {p : PoolWindow} (hpool : pool.window = some p)
    (h : ¬ fl (p.windowStart + o.windowMs) ≤ now) : pool.rollWindow o now = p := by
  rw [Pool.rollWindow, hpool]
  exact if_neg h

/-- A stale hash is that of a pool with nothing to keep. -/
theorem rollWindow_of_stale {h : PoolHash} {ws : ℚ} {p : PoolWindow} (hpool : pool.window = some p)
    (hws : h.ws = some ws) (halike : Alike ws h.weights h.granted p) (hstale : Stale o h now) :
    pool.rollWindow o now = fresh o now := by
  obtain ⟨hstart, hweights, -, -⟩ := halike
  rcases hstale ws hws with hle | ⟨haligned, hempty, -⟩
  · exact rollWindow_of_le hpool (hstart ▸ hle)
  · by_cases hle : fl (p.windowStart + o.windowMs) ≤ now
    · exact rollWindow_of_le hpool hle
    · rw [rollWindow_of_lt hpool hle]
      have hentries : p.regions.entries = [] := by
        rw [hweights] at hempty
        exact List.map_eq_nil_iff.mp hempty
      obtain ⟨start, regions⟩ := p
      rw [fresh, ← haligned, hstart]
      exact congrArg (PoolWindow.mk _) (OrderedMap.ext hentries)

/-- **What the script goes on with is the window of the pool**, once both were rolled. -/
theorem Same.loaded (h : Same o now key pool)
    (hkept : ∀ k ∈ key, k.live server = false → Stale o k.value now) :
    Alike (load o key server now).ws (load o key server now).weights
      (load o key server now).granted (pool.rollWindow o now) := by
  rcases h with ⟨k, ws, p, rfl, hpool, hws, halike⟩ | ⟨rfl, hfresh⟩
  · cases hlive : k.live server with
    | false =>
      have hread : read (some k) server = none := by
        rw [Redis.read, Option.bind_some, hlive]
        rfl
      rw [rollWindow_of_stale hpool hws halike (hkept k rfl hlive), load, hread]
      exact alike_fresh o now
    | true =>
      have hread : read (some k) server = some k.value := by
        rw [Redis.read, Option.bind_some, if_pos hlive]
      have hload : load o (some k) server now
          = if fl (ws + o.windowMs) ≤ now then ⟨none, startOf o.windowMs now, .empty, .empty⟩
            else ⟨some k, ws, k.value.weights, k.value.granted⟩ := by
        rw [load, hread, Option.getD_some, hws]
      rw [hload]
      split
      · rename_i hle
        rw [rollWindow_of_le hpool (halike.ws ▸ hle)]
        exact alike_fresh o now
      · rename_i hlt
        rw [rollWindow_of_lt hpool (halike.ws ▸ hlt)]
        exact halike
  · rw [hfresh now (.refl _ now)]
    exact alike_fresh o now

section Grant

variable {l : Loaded} {p : PoolWindow}

omit [Rounding] in
theorem myGranted_eq (h : Alike l.ws l.weights l.granted p) (name : String) :
    l.myGranted name = p.grantedTo name := by
  rw [Loaded.myGranted, PoolWindow.grantedTo, h.granted, OrderedMap.lookup_mapVal]
  cases p.regions.lookup name <;> rfl

omit [Rounding] in
theorem grantedTo_nonneg (h : Alike l.ws l.weights l.granted p) (name : String) :
    0 ≤ p.grantedTo name := by
  rw [PoolWindow.grantedTo]
  cases hlookup : p.regions.lookup name with
  | none => exact le_rfl
  | some r => exact h.nonneg name r hlookup

theorem othersHold_eq (h : Alike l.ws l.weights l.granted p) :
    l.othersHold o .inserted region weight
      = othersHold o (p.regions.set region ⟨weight, p.grantedTo region⟩) region := by
  have hweights : (l.weights.set region weight).entries
      = (p.regions.set region ⟨weight, p.grantedTo region⟩).entries.map fun e =>
        (e.1, e.2.weight) := by
    rw [h.weights, ← OrderedMap.mapVal_set RegionEntry.weight p.regions region
      ⟨weight, p.grantedTo region⟩]
    rfl
  simp only [Loaded.othersHold, FederatedFairEscrow.othersHold, PairsOrder.inserted, id, hweights,
    List.map_map, List.filter_map]
  refine congrArg sumOf (List.map_congr_left fun e he => ?_)
  obtain ⟨hmem, hne⟩ := List.mem_filter.mp he
  have hlook := OrderedMap.lookup_of_mem_entries hmem
  rw [OrderedMap.lookup_set_of_ne _ _ (Ne.symm (of_decide_eq_true hne))] at hlook
  have hgranted : l.myGranted e.1 = e.2.granted := by
    rw [myGranted_eq h, PoolWindow.grantedTo, hlook]
    rfl
  show l.held o _ e.1 e.2.weight = _
  rw [Loaded.held, hgranted, ite_lt_eq_max, max_comm]
  rfl

theorem ceiling_eq (h : Alike l.ws l.weights l.granted p) :
    l.ceiling o .inserted region weight = max (p.grantedTo region) (fl (o.budget
      - othersHold o (p.regions.set region ⟨weight, p.grantedTo region⟩) region)) := by
  rw [Loaded.ceiling, othersHold_eq h, myGranted_eq h, ite_lt_eq_max]

theorem newGranted_eq (h : Alike l.ws l.weights l.granted p) :
    l.newGranted o .inserted region weight wantTotal
      = if wantTotal ≤ l.myGranted region then l.myGranted region
        else min wantTotal (l.ceiling o .inserted region weight) := by
  rw [Loaded.newGranted]
  split
  · rfl
  · rename_i hwant
    have hheld : 0 ≤ l.myGranted region := (myGranted_eq h region) ▸ grantedTo_nonneg h region
    have hceiling : 0 ≤ l.ceiling o .inserted region weight := by
      rw [ceiling_eq h]
      exact (grantedTo_nonneg h region).trans (le_max_left _ _)
    have hleast : 0 ≤ min (l.ceiling o .inserted region weight) wantTotal :=
      le_min hceiling (hheld.trans (not_le.mp hwant).le)
    dsimp only
    rw [ite_lt_eq_min, if_neg (not_lt.mpr hleast), min_comm]

theorem newGranted_of_summed {pairs : PairsOrder}
    (h : l.myGranted region < wantTotal →
      l.othersHold o pairs region weight = l.othersHold o .inserted region weight) :
    l.newGranted o pairs region weight wantTotal
      = l.newGranted o .inserted region weight wantTotal := by
  rw [Loaded.newGranted, Loaded.newGranted]
  split
  · rfl
  · rename_i hwant
    rw [Loaded.ceiling, Loaded.ceiling, h (not_le.mp hwant)]

/-- The grant of the pool in process, and the window it leaves. -/
theorem grant_eq (hpool : pool.rollWindow o now = p) (hweight : 0 < weight)
    (h : Alike l.ws l.weights l.granted p) :
    grant o pool region weight wantTotal now
      = some (⟨p.windowStart, p.regions.set region
          ⟨weight, l.newGranted o .inserted region weight wantTotal⟩⟩,
        l.newGranted o .inserted region weight wantTotal) := by
  rw [grant, if_pos hweight, hpool, newGranted_eq h, myGranted_eq h, ceiling_eq h]
  dsimp only
  split
  · rfl
  · rw [OrderedMap.set_set]

end Grant

/-- What is left once a grant was replied. -/
theorem grantLua_fst (o : PoolOptions) (key : Option (Key PoolHash)) (server : ℤ) (now : ℚ)
    (pairs : PairsOrder) (region : String) (weight wantTotal : ℚ) :
    ∃ k, (grantLua o key server now pairs region weight wantTotal).1 = some k ∧
      k.value = ⟨some (load o key server now).ws,
        (load o key server now).weights.set region weight,
        (load o key server now).granted.set region
          ((load o key server now).newGranted o pairs region weight wantTotal)⟩ := by
  rw [grantLua]
  split
  · exact ⟨_, rfl, rfl⟩
  · rename_i k hk
    exact ⟨k, rfl, (diesAt_of_pexpire hk).1⟩

/-- The reply of a grant, where `PEXPIRE` is given a whole number. -/
theorem grantLua_snd (o : PoolOptions) (key : Option (Key PoolHash)) (server : ℤ) (now : ℚ)
    (pairs : PairsOrder) (region : String) (weight wantTotal : ℚ) :
    (grantLua o key server now pairs region weight wantTotal).2
      = if Whole ((load o key server now).pexp o now) then
          if Fits ((load o key server now).newGranted o pairs region weight wantTotal) then
            .ok (luaInteger
              ((load o key server now).newGranted o pairs region weight wantTotal) : ℚ)
          else .error .notHeld
        else .error .notAnInteger := by
  rw [grantLua]
  by_cases hwhole : Whole ((load o key server now).pexp o now)
  · have hpexpire : ∀ k : Key PoolHash, pexpire k server ((load o key server now).pexp o now)
        = some { k with diesAt := some (server + ⌊(load o key server now).pexp o now⌋) } :=
      fun k => if_pos hwhole
    rw [if_pos hwhole, hpexpire]
  · have hpexpire : ∀ k : Key PoolHash,
        pexpire k server ((load o key server now).pexp o now) = none := fun k => if_neg hwhole
    rw [if_neg hwhole, hpexpire]

omit [Rounding] in
/-- When a reply is the grant. -/
theorem reply_iff {P : Prop} [Decidable P] {granted : ℚ} :
    (if P then if Fits granted then .ok (luaInteger granted : ℚ) else .error .notHeld
        else .error .notAnInteger : Except GrantError ℚ).map some = .ok (some granted) ↔
      P ∧ Whole granted ∧ Fits granted := by
  have hok : ∀ x : ℚ,
      (Except.ok x : Except GrantError ℚ).map some = .ok (some granted) ↔ x = granted :=
    fun x => ⟨fun h => Option.some.inj (Except.ok.inj h), fun h => h ▸ rfl⟩
  by_cases hP : P
  · by_cases hfits : Fits granted
    · rw [if_pos hP, if_pos hfits, hok, luaInteger_eq_iff]
      exact ⟨fun h => ⟨hP, h, hfits⟩, fun h => h.2.1⟩
    · rw [if_pos hP, if_neg hfits]
      exact ⟨fun h => (by cases h), fun h => absurd h.2.2 hfits⟩
  · rw [if_neg hP]
    exact ⟨fun h => (by cases h), fun h => absurd h.1 hP⟩

/-- **One grant of both pools.** -/
theorem Same.grant (h : Same o v.now key pool) (hkept : Kept o key v)
    (hop : v.op = .grant region weight wantTotal)
    (haccepted : region ≠ "" ∧ 0 < weight ∧ 0 ≤ wantTotal) :
    ((onRedis o key v).2 = (inProcess o pool v).2 ↔ Rounds o key v) ∧
      Same o v.now (onRedis o key v).1 (inProcess o pool v).1 := by
  obtain ⟨hnow, hlive, hsummed⟩ := hkept
  rw [Summed, hop] at hsummed
  have hgranted := newGranted_of_summed hsummed
  obtain ⟨hregion, hweight, hwant⟩ := haccepted
  have halike := h.loaded hlive
  obtain ⟨p, hpool⟩ : ∃ p, pool.rollWindow o v.now = p := ⟨_, rfl⟩
  rw [hpool] at halike
  have hvalid : ¬ (region = "" ∨ weight ≤ 0 ∨ wantTotal < 0) := by
    rintro (h | h | h)
    · exact hregion h
    · exact absurd hweight (not_lt.mpr h)
    · exact absurd hwant (not_le.mpr h)
  have hredis : onRedis o key v =
      ((grantLua o key v.server v.now v.pairs region weight wantTotal).1,
      (grantLua o key v.server v.now v.pairs region weight wantTotal).2.map some) := by
    rw [onRedis, hop, ← hnow]
    exact if_neg hvalid
  have hprocess : inProcess o pool v = (⟨some ⟨p.windowStart, p.regions.set region ⟨weight,
      (load o key v.server v.now).newGranted o .inserted region weight wantTotal⟩⟩, v.now⟩,
      .ok (some ((load o key v.server v.now).newGranted o .inserted region weight wantTotal))) := by
    rw [inProcess, hop]
    dsimp only
    rw [grant_eq hpool hweight halike]
  rw [hredis, hprocess]
  constructor
  · rw [grantLua_snd, hgranted, reply_iff, Rounds, hop]
    refine and_congr_right fun _ => ?_
    rw [newGranted_eq halike]
    split <;> rfl
  · obtain ⟨k, hk, hvalue⟩ := grantLua_fst o key v.server v.now v.pairs region weight wantTotal
    rw [hgranted] at hvalue
    have hnonneg :
        0 ≤ (load o key v.server v.now).newGranted o .inserted region weight wantTotal := by
      rw [newGranted_eq halike]
      split
      · rw [myGranted_eq halike]
        exact grantedTo_nonneg halike region
      · rw [ceiling_eq halike]
        exact le_min hwant ((grantedTo_nonneg halike region).trans (le_max_left _ _))
    refine .inl ⟨k, _, _, hk, rfl, by rw [hvalue], ?_⟩
    rw [hvalue]
    refine ⟨halike.ws, ?_, ?_, fun name r hname => ?_⟩
    · rw [OrderedMap.mapVal_set, ← halike.weights]
    · rw [OrderedMap.mapVal_set, ← halike.granted]
    · rw [OrderedMap.lookup_set] at hname
      split at hname
      · rw [← Option.some.inj hname]
        exact hnonneg
      · exact halike.nonneg name r hname

/-- **One release of both pools.** -/
theorem Same.release (h : Same o v.now key pool) (hkept : Kept o key v)
    (hop : v.op = .release region) :
    ((onRedis o key v).2 = (inProcess o pool v).2 ↔ Rounds o key v) ∧
      Same o v.now (onRedis o key v).1 (inProcess o pool v).1 := by
  obtain ⟨hnow, hlive, -⟩ := hkept
  have hredis : onRedis o key v = (releaseLua o key v.server v.now region, .ok none) := by
    rw [onRedis, hop, ← hnow]
  have hprocess : inProcess o pool v = (pool.release o region v.now, .ok none) := by
    rw [inProcess, hop]
  have hrounds : Rounds o key v := by
    rw [Rounds, hop]
    exact trivial
  rw [hredis, hprocess]
  refine ⟨iff_of_true rfl hrounds, ?_⟩
  -- a pool that was rolled and is empty has nothing to keep
  have hnothing : pool.rollWindow o v.now = fresh o v.now →
      ∀ t, Follows o.windowMs v.now t →
        (pool.release o region v.now).rollWindow o t = fresh o t := by
    intro hfresh t ht
    have hwindow : (pool.release o region v.now).window = some (fresh o v.now) := by
      rw [Pool.release, hfresh]
      rfl
    by_cases hle : fl ((fresh o v.now).windowStart + o.windowMs) ≤ t
    · exact rollWindow_of_le hwindow hle
    · rw [rollWindow_of_lt hwindow hle, fresh, fresh,
        ht.startOf_eq (not_le.mp hle)]
  rcases h with ⟨k, ws, p, rfl, hpool, hws, halike⟩ | ⟨rfl, hfresh⟩
  · cases hlive' : k.live v.server with
    | false =>
      have hread : read (some k) v.server = none := by
        rw [Redis.read, Option.bind_some, hlive']
        rfl
      rw [releaseLua, hread]
      exact .inr ⟨rfl, hnothing (rollWindow_of_stale hpool hws halike (hlive k rfl hlive'))⟩
    | true =>
      have hread : read (some k) v.server = some k.value := by
        rw [Redis.read, Option.bind_some, if_pos hlive']
      rw [releaseLua, hread, Option.bind_some, hws]
      dsimp only
      split
      · rename_i hle
        exact .inr ⟨rfl, hnothing (rollWindow_of_le hpool (halike.ws ▸ hle))⟩
      · rename_i hlt
        have hroll := rollWindow_of_lt hpool (halike.ws ▸ hlt)
        have hwindow : (pool.release o region v.now).window
            = some { p with regions := p.regions.erase region } := by
          rw [Pool.release, hroll]
        refine .inl ⟨_, ws, _, rfl, hwindow, hws, halike.ws, ?_, ?_, fun name r hname => ?_⟩
        · rw [OrderedMap.mapVal_erase, ← halike.weights]
        · rw [OrderedMap.mapVal_erase, ← halike.granted]
        · rw [OrderedMap.lookup_erase] at hname
          split at hname
          · cases hname
          · exact halike.nonneg name r hname
  · exact .inr ⟨rfl, hnothing (hfresh v.now (.refl _ v.now))⟩

/-- **One call of both pools.** -/
theorem Same.step (h : Same o v.now key pool) (haccepted : v.op.Accepted) (hkept : Kept o key v) :
    ((onRedis o key v).2 = (inProcess o pool v).2 ↔ Rounds o key v) ∧
      Same o v.now (onRedis o key v).1 (inProcess o pool v).1 := by
  cases hop : v.op with
  | grant region weight wantTotal =>
    rw [hop] at haccepted
    exact h.grant hkept hop haccepted
  | release region => exact h.release hkept hop

end Step

/-! ### Whole runs -/

/-- A pool before its first call. -/
def Pool.start : Pool := ⟨none, 0⟩

theorem same_start (o : PoolOptions) (now : ℚ) : Same o now none Pool.start :=
  .inr ⟨rfl, fun _ _ => rfl⟩

section OneClock

variable {o : PoolOptions} {key : Option (Key PoolHash)}

/-- The hash expires when its window has ended, and not before. -/
def ExpiresLate (o : PoolOptions) (key : Option (Key PoolHash)) : Prop :=
  ∀ k ∈ key, ∀ d, k.diesAt = some d → ∀ ws ∈ k.value.ws, fl (ws + o.windowMs) < d + 1

/-- The hash the script goes on with is the one it found, or none. -/
theorem load_key (o : PoolOptions) (key : Option (Key PoolHash)) (server : ℤ) (now : ℚ) :
    (load o key server now).key = none ∨
      ∃ k ∈ key, (load o key server now).key = some k ∧
        k.value.ws = some (load o key server now).ws := by
  cases hread : read key server with
  | none =>
    rw [load, hread]
    exact .inl rfl
  | some h =>
    obtain ⟨k, hk, -, rfl⟩ := read_eq_some hread
    rw [load, hread, Option.getD_some]
    cases hws : k.value.ws with
    | none => exact .inl rfl
    | some ws =>
      dsimp only
      split
      · exact .inl rfl
      · exact .inr ⟨k, hk, hk, hws⟩

theorem ExpiresLate.grantLua {server : ℤ} {now : ℚ} (h : ExpiresLate o key)
    (hserver : server = ⌊now⌋)
    (hleft : Unrounded (fl ((load o key server now).ws + o.windowMs) - now)) (pairs : PairsOrder)
    (region : String) (weight wantTotal : ℚ) :
    ExpiresLate o (grantLua o key server now pairs region weight wantTotal).1 := by
  intro k hk d hd ws hws
  rw [RedisRegionFairPool.grantLua] at hk
  split at hk
  · -- `PEXPIRE` has failed, and what was written keeps the expiry
    obtain rfl := Option.some.inj hk
    obtain rfl := Option.some.inj hws
    rcases load_key o key server now with hnone | ⟨k', hk', hkey, hws'⟩
    · rw [write, hnone] at hd
      cases hd
    · rw [write, hkey, Option.bind_some] at hd
      split at hd
      · exact h k' hk' d hd _ hws'
      · cases hd
  · rename_i k' hexpire
    obtain rfl := Option.some.inj hk
    obtain ⟨hvalue, t, ht, hwhole⟩ := diesAt_of_pexpire hexpire
    rw [hvalue] at hws
    obtain rfl := Option.some.inj hws
    obtain rfl := Option.some.inj (hd.symm.trans ht)
    have hpexp : fl ((load o key server now).ws + o.windowMs) - now
        ≤ (load o key server now).pexp o now := by
      rw [Loaded.pexp, ite_lt_eq_max, hleft]
      exact le_max_right _ _
    have hclock : now < (server : ℚ) + 1 := by
      rw [hserver]
      exact Int.lt_floor_add_one now
    rw [hwhole]
    linarith

theorem ExpiresLate.releaseLua {server : ℤ} {now : ℚ} (h : ExpiresLate o key) (region : String) :
    ExpiresLate o (releaseLua o key server now region) := by
  rw [RedisRegionFairPool.releaseLua]
  intro k hk d hd ws hws
  split at hk
  · cases hk
  · split at hk
    · cases hk
    · obtain ⟨k', hk', rfl⟩ := Option.map_eq_some_iff.mp hk
      exact h k' hk' d hd ws hws

/-- A hash that has expired is one whose window has ended. -/
theorem ExpiresLate.stale {k : Key PoolHash} {server : ℤ} {now : ℚ} (h : ExpiresLate o (some k))
    (hserver : (server : ℚ) ≤ now) (hdead : k.live server = false) : Stale o k.value now := by
  intro ws hws
  cases hdies : k.diesAt with
  | none =>
    rw [Key.live, hdies] at hdead
    cases hdead
  | some d =>
    rw [Key.live, hdies] at hdead
    have hlt : d + 1 ≤ server := not_le.mp (of_decide_eq_false hdead)
    have hpast : ((d + 1 : ℤ) : ℚ) ≤ server := Int.cast_le.mpr hlt
    push_cast at hpast
    left
    linarith [h k rfl d hdies ws hws]

/-- **On one clock the hash does not expire while it matters**, when the time that is left to its
window is not rounded. -/
theorem kept_of_oneClock (o : PoolOptions) {vs : List Visit}
    (hclock : AllMet (onRedis o) (fun key v => luaNow v.server v.nowArg = v.now ∧
      v.server = ⌊v.now⌋ ∧ Summed o key v ∧
        Unrounded (fl ((load o key v.server v.now).ws + o.windowMs) - v.now)) none vs) :
    AllMet (onRedis o) (Kept o) none vs := by
  have hstart : ExpiresLate o none := by simp [ExpiresLate]
  refine AllMet.imp_of_invariant (I := ExpiresLate o) ?_ hstart hclock
  rintro key v h ⟨hnow, hserver, hsummed, hleft⟩
  have hle : (v.server : ℚ) ≤ v.now := by
    rw [hserver]
    exact Int.floor_le _
  refine ⟨⟨hnow, fun k hk hdead => ?_, hsummed⟩, ?_⟩
  · rw [Option.mem_def.mp hk] at h
    exact h.stale hle hdead
  · rw [onRedis, hnow]
    cases v.op with
    | grant region weight wantTotal =>
      dsimp only
      split
      · exact h
      · exact h.grantLua hserver hleft v.pairs region weight wantTotal
    | release region => exact h.releaseLua region

end OneClock

/-- **Whole weights and whole grants add up alike in every order**, up to 53 bits. -/
theorem othersHold_of_isWhole (o : PoolOptions) (l : Loaded) (pairs : PairsOrder) (region : String)
    {weight : ℚ} (hweights : ∀ e ∈ (l.weights.set region weight).entries, IsWhole e.2 ∧ 0 ≤ e.2)
    (hgranted : ∀ r, IsWhole (l.myGranted r) ∧ 0 ≤ l.myGranted r)
    (hweight : ((l.weights.set region weight).entries.map Prod.snd).sum ≤ 2 ^ 53)
    (hheld : ∀ totalWeight, (((l.weights.set region weight).entries.filter
      fun e => e.1 ≠ region).map fun e => l.held o totalWeight e.1 e.2).sum ≤ 2 ^ 53) :
    l.othersHold o pairs region weight = l.othersHold o .inserted region weight := by
  have hperm := pairs.perm (l.weights.set region weight).entries
  have hsame {f : String × ℚ → ℚ} {as bs : List (String × ℚ)} (h : as.Perm bs)
      (hf : ∀ e ∈ bs, IsWhole (f e) ∧ 0 ≤ f e) (hsum : (bs.map f).sum ≤ 2 ^ 53) :
      sumOf (as.map f) = sumOf (bs.map f) := by
    have hbs : ∀ x ∈ bs.map f, IsWhole x ∧ 0 ≤ x := List.forall_mem_map.mpr hf
    have hmap := h.map f
    rw [sumOf_of_isWhole (fun x hx => hbs x (hmap.mem_iff.mp hx)) (hmap.sum_eq.trans_le hsum),
      sumOf_of_isWhole hbs hsum, hmap.sum_eq]
  have hwhole (totalWeight : ℚ) (e : String × ℚ) :
      IsWhole (l.held o totalWeight e.1 e.2) ∧ 0 ≤ l.held o totalWeight e.1 e.2 := by
    rw [Loaded.held, ite_lt_eq_max]
    refine ⟨?_, le_max_of_le_right (hgranted e.1).2⟩
    rcases max_choice
      (if 0 < totalWeight then (⌊fl (fl (e.2 * o.budget) / totalWeight)⌋ : ℚ) else 0)
      (l.myGranted e.1) with hmax | hmax
    · rw [hmax]
      split
      · exact isWhole_intCast _
      · exact isWhole_intCast 0
    · rw [hmax]
      exact (hgranted e.1).1
  simp only [Loaded.othersHold, PairsOrder.inserted, id]
  rw [hsame hperm hweights hweight]
  exact hsame (hperm.filter _) (fun e _ => hwhole _ e) (hheld _)

/-- The instant of a call; later ones follow it. -/
structure Instant (o : PoolOptions) where
  now : ℚ

instance (o : PoolOptions) : Preorder (Instant o) where
  le s t := Follows o.windowMs s.now t.now
  le_refl s := .refl _ s.now
  le_trans _ _ _ h h' := h.trans h'

/-- **The grants on Redis are those in process just where they are replied as they are.** This is
for any budget and window, and any calls of any regions that both pools accept, at times that follow
one another, in any order of the tables, that keep the state. -/
theorem grants_eq_iff (o : PoolOptions) {vs : List Visit}
    (hsorted : vs.Pairwise fun v v' => Follows o.windowMs v.now v'.now)
    (haccepted : ∀ v ∈ vs, v.op.Accepted) (hkept : AllMet (onRedis o) (Kept o) none vs) :
    answers (onRedis o) none vs = answers (inProcess o) Pool.start vs ↔
      AllMet (onRedis o) (Rounds o) none vs := by
  have hstep : ∀ key pool v, Same o v.now key pool → (v.op.Accepted ∧ Kept o key v) → True →
      ((onRedis o key v).2 = id (inProcess o pool v).2 ↔ Rounds o key v) ∧
        (Rounds o key v → Same o v.now (onRedis o key v).1 (inProcess o pool v).1) :=
    fun key pool v h hok _ => (h.step hok.1 hok.2).imp_right fun hnext _ => hnext
  have hfollows : vs.Pairwise fun v v' => Instant.mk (o := o) v.now ≤ Instant.mk v'.now := hsorted
  have hiff := answers_eq_map_iff_of_start (R := fun t => Same o t.now)
    (fun hle h => h.mono hle) hstep (fun t => same_start o t.now) hfollows
    (hkept.and_forall haccepted) (allMet_true _ _)
  rwa [List.map_id] at hiff

end Rounded

/-- A budget of ten a second. -/
def tenPerSecond : PoolOptions where
  limit := 10
  windowMs := 1000
  limit_pos := ten_pos
  windowMs_pos := second_pos

/-- The order in which the entries came, the last one first. -/
def PairsOrder.reversed : PairsOrder := ⟨List.reverse, fun l => List.reverse_perm l⟩

/-- The second region is capped at its half, until the first one is released; the last call finds
that the hash has expired. The server's clock is the one the times are read from. -/
def twoRegions : List Visit :=
  [⟨100, 0, 100, .inserted, .grant "us" 1 4⟩, ⟨200, 200, 200, .reversed, .grant "eu" 1 7⟩,
    ⟨300, 0, 300, .inserted, .release "us"⟩, ⟨900, 900, 900, .inserted, .grant "eu" 1 8⟩,
    ⟨2500, 0, 2500, .reversed, .grant "us" 1 9⟩]

theorem grants_eq_twoRegions :
    answers (@onRedis doubles tenPerSecond) none twoRegions
      = answers (@inProcess doubles tenPerSecond) Pool.start twoRegions :=
  (@grants_eq_iff doubles tenPerSecond twoRegions (by decide +kernel) (by decide +kernel)
    (by decide +kernel)).mpr (by decide +kernel)

/-- Both pools grant the same, on one clock. -/
def GrantsAgree (o : PoolOptions) : Prop :=
  ∀ vs : List Visit, (vs.Pairwise fun v v' => v.now ≤ v'.now) → (∀ v ∈ vs, v.op.Accepted) →
    (∀ v ∈ vs, luaNow v.server v.nowArg = v.now ∧ v.server = ⌊v.now⌋) →
    answers (@onRedis doubles o) none vs = answers (@inProcess doubles o) Pool.start vs

/-- Two and a half are wanted, and granted in process; the script replies two. -/
theorem not_grantsAgree : ¬ ∀ o : PoolOptions, GrantsAgree o := by
  intro h
  have hrun := h tenPerSecond [⟨100, 100, 100, .inserted, .grant "us" 1 (5 / 2)⟩]
    (by decide +kernel) (by decide +kernel) (by decide +kernel)
  exact absurd (congrArg (List.map Except.toOption) hrun) (by decide +kernel)

-- the doubles next to 0.2, 0.3 and 0.1 add up to 0.6 as they came, and to more in another order
example :
    let vs (pairs : PairsOrder) : List Visit :=
      [⟨0, 0, 0, pairs, .grant "us" (Double.roundRat (1 / 5)) 1⟩,
        ⟨0, 0, 0, pairs, .grant "ap" (Double.roundRat (3 / 10)) 1⟩,
        ⟨0, 0, 0, pairs, .grant "eu" (Double.roundRat (1 / 10)) 1⟩,
        ⟨0, 0, 0, pairs, .grant "us" (Double.roundRat (1 / 5)) 10⟩]
    (answers (@onRedis doubles tenPerSecond) none (vs .reversed)).map Except.toOption
      = [some (some 1), some (some 1), some (some 1), some (some 5)] ∧
    (answers (@inProcess doubles tenPerSecond) Pool.start (vs .reversed)).map Except.toOption
      = [some (some 1), some (some 1), some (some 1), some (some 4)] := by
  decide +kernel

end ThrottleKit.RedisRegionFairPool
