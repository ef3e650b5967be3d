import ThrottleKit.Concurrency.Adaptive
import ThrottleKit.Lib.MonotoneDeque
import ThrottleKit.Lib.RingSlice

/-!
# The no-load latency of the adaptive guard

The guard keeps the candidates for the smallest of its last samples in a ring of one slot more than
the window has samples. A probe that ends starts the ring anew from the smallest latency it has
measured, which is the first sample from then on. A window below one counts as one.

## Main definitions

* `History` — the samples since the last probe ended, and the clean ones of the probe going on
* `Measures` — the ring holds the candidates of the samples

## Main results

* `Measures.recordRtt` — a sample, and the slot it is written to
* `noload_is_windowed_minimum` — the no-load latency over whole runs
-/

namespace ThrottleKit.Adaptive

open MonotoneDeque RingSlice

/-! ### Runs and samples -/

/-- What is done with a guard. The releases are of any leases, in any order. -/
inductive Op
  | acquire (now : ℚ)
  | release (lease : Lease) (dropped : Bool) (now : ℚ)

/-- The guard after an operation. -/
def step (cfg : Config) (g : Guard) : Op → Guard
  | .acquire now => (acquire cfg g now).1
  | .release lease dropped now => (lease.doRelease cfg g dropped now).1

/-- The latency that a release measures. -/
def Lease.rtt (lease : Lease) (now : ℚ) : ℚ := max 0 (now - lease.startTime)

/-- The samples so far, oldest first. -/
structure History where
  /-- Since the last probe ended; the first is what it measured. -/
  samples : List ℚ
  /-- The clean samples of the probe going on. -/
  clean : List ℚ

/-- The samples after an operation. -/
def History.step (cfg : Config) (g : Guard) (h : History) : Op → History
  | .acquire _ => h
  | .release lease dropped now =>
    if lease.released then h
    else if !g.probing then ⟨h.samples ++ [lease.rtt now], []⟩
    else if dropped = false ∧ lease.inflightAtAcquire ≤ cfg.probeLimit then
      let clean := h.clean ++ [lease.rtt now]
      if clean.length ≥ cfg.probeSamples then ⟨clean.min?.toList, []⟩ else ⟨h.samples, clean⟩
    else h

/-- The guard and the samples after a run from a guard constructed at `start`. -/
def run (cfg : Config) (start : ℚ) (ops : List Op) : Guard × History :=
  ops.foldl (fun s op => (step cfg s.1 op, s.2.step cfg s.1 op)) (.new cfg start, ⟨[], []⟩)

/-- How many samples count. -/
def Config.span (cfg : Config) : ℕ := max 1 cfg.window

theorem Config.span_pos (cfg : Config) : 0 < cfg.span :=
  Nat.lt_of_lt_of_le one_pos (le_max_left _ _)

/-- The smallest of the last samples. -/
def Config.windowedMin (cfg : Config) (samples : List ℚ) : Option ℚ :=
  (samples.drop (samples.length - cfg.span)).min?

/-- The slots of the ring. -/
def Guard.slots (g : Guard) (i : ℕ) : ℤ × ℚ := (g.dqSeq i, g.dqVal i)

/-- The candidates in the ring. -/
def Guard.candidates (cfg : Config) (g : Guard) : List (ℤ × ℚ) :=
  slice g.slots cfg.cap g.dqHead (g.dqTail - g.dqHead)

/-! ### The ring -/

/-- A candidate as the ring holds it. -/
def indexed (first : ℕ) (e : Candidate ℚ) : ℤ × ℚ := (((first + e.1 : ℕ) : ℤ), e.2)

/-- The ring holds the candidates of the samples, the first of which has the index `first`. -/
structure Measures (cfg : Config) (first : ℕ) (samples : List ℚ) (g : Guard) : Prop where
  nextSeq_eq : g.nextSeq = first + samples.length
  head_le_tail : g.dqHead ≤ g.dqTail
  holds : ∃ d, Tracks cfg.span samples d ∧
    g.candidates cfg = d.map (indexed first)
  noload : samples ≠ [] → cfg.windowedMin samples = some g.rttNoload

variable {cfg : Config} {g : Guard} {first : ℕ} {samples : List ℚ} {rtt : ℚ}

/-- The back of the ring without the candidates that are no smaller than a new sample. -/
theorem slice_popBack (slots : ℕ → ℤ × ℚ) (cap head : ℕ) (rtt : ℚ) :
    ∀ tail, head ≤ tail →
      head ≤ Guard.popBack (fun i => (slots i).2) cap head rtt tail ∧
      slice slots cap head (Guard.popBack (fun i => (slots i).2) cap head rtt tail - head)
        = (slice slots cap head (tail - head)).rdropWhile fun e => rtt ≤ e.2
  | 0, hle => by
    rw [Guard.popBack, Nat.zero_sub]
    exact ⟨hle, rfl⟩
  | tail + 1, hle => by
    rw [Guard.popBack]
    rcases hle.eq_or_lt with heq | hlt
    · rw [if_neg (fun h => heq.not_lt h.1), heq, Nat.sub_self]
      exact ⟨le_rfl, rfl⟩
    · have hle' : head ≤ tail := Nat.lt_succ_iff.mp hlt
      have hlast : head + (tail - head) = tail := Nat.add_sub_cancel' hle'
      rw [Nat.succ_sub hle', slice_succ, hlast, List.rdropWhile_concat]
      by_cases hpop : rtt ≤ (slots (tail % cap)).2
      · rw [if_pos ⟨hlt, hpop⟩, if_pos (decide_eq_true hpop)]
        exact slice_popBack slots cap head rtt tail hle'
      · rw [if_neg (fun h => hpop h.2), if_neg (by rwa [decide_eq_true_iff]), Nat.succ_sub hle',
          slice_succ, hlast]
        exact ⟨hle, rfl⟩

/-- The head of the ring once its front has expired. -/
def Guard.expiredHead (cfg : Config) (g : Guard) : ℕ :=
  if g.dqTail > g.dqHead ∧ g.dqSeq (g.dqHead % cfg.cap) ≤ (g.nextSeq : ℤ) - cfg.window then
    g.dqHead + 1
  else g.dqHead

/-- The tail of the ring before a sample is written. -/
def Guard.keptTail (cfg : Config) (g : Guard) (rtt : ℚ) : ℕ :=
  Guard.popBack g.dqVal cfg.cap (g.expiredHead cfg) rtt g.dqTail

theorem recordRtt_slots (cfg : Config) (g : Guard) (rtt : ℚ) :
    (g.recordRtt cfg rtt).slots
      = Function.update g.slots (g.keptTail cfg rtt % cfg.cap) ((g.nextSeq : ℤ), rtt) := by
  funext i
  simp only [Guard.slots, Guard.recordRtt]
  by_cases hi : i = g.keptTail cfg rtt % cfg.cap
  · rw [hi, Function.update_self]
    exact Prod.ext (Function.update_self ..) (Function.update_self ..)
  · rw [Function.update_of_ne hi]
    exact Prod.ext (Function.update_of_ne hi ..) (Function.update_of_ne hi ..)

/-- The ring without an expired front. -/
theorem Measures.slice_expiredHead (h : Measures cfg first samples g) {d : List (Candidate ℚ)}
    (hd : Tracks cfg.span samples d) (hring : g.candidates cfg = d.map (indexed first)) :
    g.expiredHead cfg ≤ g.dqTail ∧
      slice g.slots cfg.cap (g.expiredHead cfg) (g.dqTail - g.expiredHead cfg)
        = (expire samples.length cfg.span d).map (indexed first) := by
  rw [Guard.candidates] at hring
  rw [Guard.expiredHead]
  cases d with
  | nil =>
    have hempty : g.dqTail - g.dqHead = 0 := by
      have := congrArg List.length hring
      rwa [length_slice] at this
    rw [if_neg (fun hexpired => by omega), hempty]
    exact ⟨h.head_le_tail, rfl⟩
  | cons e d =>
    have hlen : g.dqTail - g.dqHead = d.length + 1 := by
      have := congrArg List.length hring
      rwa [length_slice, List.length_map] at this
    rw [hlen, slice_succ_eq_cons] at hring
    obtain ⟨hfront, hrest⟩ := List.cons.inj hring
    have hseq : g.dqSeq (g.dqHead % cfg.cap) = ((first + e.1 : ℕ) : ℤ) := congrArg Prod.fst hfront
    -- a window of none keeps as much as a window of one
    have hplace := hd.place_lt List.mem_cons_self
    have hold : g.dqTail > g.dqHead ∧
        g.dqSeq (g.dqHead % cfg.cap) ≤ (g.nextSeq : ℤ) - cfg.window ↔
          e.1 + cfg.span ≤ samples.length := by
      rw [hseq, h.nextSeq_eq, Config.span]
      omega
    rw [expire]
    by_cases hexpired : e.1 + cfg.span ≤ samples.length
    · rw [if_pos (hold.mpr hexpired), if_pos hexpired,
        show g.dqTail - (g.dqHead + 1) = d.length by omega]
      exact ⟨by omega, hrest⟩
    · rw [if_neg (fun hcode => hexpired (hold.mp hcode)), if_neg hexpired, hlen, slice_succ_eq_cons,
        hfront, hrest]
      exact ⟨h.head_le_tail, rfl⟩

/-- The ring before a sample is written: what stays, and that the slot behind it is free. -/
theorem Measures.slice_keptTail (h : Measures cfg first samples g) {d : List (Candidate ℚ)}
    (hd : Tracks cfg.span samples d) (hring : g.candidates cfg = d.map (indexed first)) (rtt : ℚ) :
    g.expiredHead cfg ≤ g.keptTail cfg rtt ∧
      g.keptTail cfg rtt - g.expiredHead cfg < cfg.cap ∧
      slice g.slots cfg.cap (g.expiredHead cfg) (g.keptTail cfg rtt - g.expiredHead cfg)
        = ((expire samples.length cfg.span d).rdropWhile fun e => rtt ≤ e.2).map
            (indexed first) := by
  obtain ⟨hle, hexpired⟩ := h.slice_expiredHead hd hring
  obtain ⟨hkept, hslice⟩ := slice_popBack g.slots cfg.cap (g.expiredHead cfg) rtt g.dqTail hle
  have hmap : ∀ l : List (Candidate ℚ), (l.map (indexed first)).rdropWhile (fun e => rtt ≤ e.2)
      = (l.rdropWhile fun e => rtt ≤ e.2).map (indexed first) := by
    intro l
    rw [List.rdropWhile, List.rdropWhile, ← List.map_reverse, List.dropWhile_map, List.map_reverse]
    rfl
  rw [hexpired, hmap] at hslice
  refine ⟨hkept, ?_, hslice⟩
  have hlen : g.keptTail cfg rtt - g.expiredHead cfg
      = ((expire samples.length cfg.span d).rdropWhile fun e => rtt ≤ e.2).length := by
    have := congrArg List.length hslice
    rwa [length_slice, List.length_map] at this
  have hprefix := (List.rdropWhile_prefix (fun e : Candidate ℚ => decide (rtt ≤ e.2))
    (expire samples.length cfg.span d)).length_le
  have hroom := hd.length_expire_lt cfg.span_pos
  have hspan : cfg.span ≤ cfg.cap := max_le (Nat.le_add_left 1 _) (Nat.le_succ _)
  omega

/-- **A sample, and the slot it is written to.** -/
theorem Measures.recordRtt (h : Measures cfg first samples g) (rtt : ℚ) :
    Measures cfg first (samples ++ [rtt]) (g.recordRtt cfg rtt) := by
  obtain ⟨d, hd, hring⟩ := h.holds
  obtain ⟨hkept, hroom, hslice⟩ := h.slice_keptTail hd hring rtt
  have htracks := hd.push cfg.span_pos rtt
  have htail : (g.recordRtt cfg rtt).dqTail = g.keptTail cfg rtt + 1 := rfl
  have hhead : (g.recordRtt cfg rtt).dqHead = g.expiredHead cfg := rfl
  have hcandidates : (g.recordRtt cfg rtt).candidates cfg
      = (push samples.length cfg.span d rtt).map (indexed first) := by
    have hwrite := slice_write g.slots (g.expiredHead cfg) hroom ((g.nextSeq : ℤ), rtt)
    rw [Nat.add_sub_cancel' hkept] at hwrite
    rw [Guard.candidates, htail, hhead, Nat.succ_sub hkept, recordRtt_slots, hwrite, hslice, push,
      List.map_append, h.nextSeq_eq]
    rfl
  refine ⟨?_, ?_, ⟨_, ?_, hcandidates⟩, fun _ => ?_⟩
  · rw [List.length_append, List.length_singleton, ← Nat.add_assoc, ← h.nextSeq_eq]
    rfl
  · rw [htail, hhead]
    omega
  · exact htracks
  · cases hpush : push samples.length cfg.span d rtt with
    | nil =>
      rw [push] at hpush
      simp at hpush
    | cons e d' =>
      rw [hpush] at htracks hcandidates
      rw [Guard.candidates, htail, hhead, Nat.succ_sub hkept, slice_succ_eq_cons] at hcandidates
      have hfront := congrArg Prod.snd (List.cons.inj hcandidates).1
      rw [Config.windowedMin, htracks.minimum]
      exact congrArg some hfront.symm

/-- The ring that a probe leaves. -/
theorem measures_finishProbe (cfg : Config) (g : Guard) (now : ℚ) :
    Measures cfg g.nextSeq [g.probeMin.getD g.rttNoload] (g.finishProbe now) := by
  have htracks := (tracks_nil cfg.span).push cfg.span_pos (g.probeMin.getD g.rttNoload)
  refine ⟨rfl, Nat.zero_le 1, ⟨_, htracks, ?_⟩, fun _ => htracks.minimum⟩
  show slice (g.finishProbe now).slots cfg.cap 0 1 = _
  rw [slice_succ_eq_cons]
  refine congrArg (· :: []) (Prod.ext ?_ ?_)
  · show Function.update g.dqSeq 0 (g.nextSeq : ℤ) (0 % cfg.cap) = g.nextSeq
    rw [Nat.zero_mod, Function.update_self]
  · show Function.update g.dqVal 0 (g.probeMin.getD g.rttNoload) (0 % cfg.cap) = _
    rw [Nat.zero_mod, Function.update_self]
    rfl

/-! ### Runs -/

/-- What a run keeps: the ring of the samples, and the probe of the clean ones. -/
structure Follows (cfg : Config) (g : Guard) (h : History) : Prop where
  measures : ∃ first, Measures cfg first h.samples g
  probe : g.probing = true → g.probeMin = h.clean.min? ∧ g.probeCount = h.clean.length

theorem follows_new (cfg : Config) (start : ℚ) : Follows cfg (.new cfg start) ⟨[], []⟩ where
  measures := ⟨0, rfl, le_rfl, ⟨[], tracks_nil _, rfl⟩, fun hne => absurd rfl hne⟩
  probe := by
    intro hprobing
    cases hprobing

/-- The laws change nothing but the estimate. -/
theorem infer_eq (cfg : Config) (g : Guard) (rtt : ℚ) (dropped : Bool) (n : ℤ) :
    g.infer cfg rtt dropped n = { g with estimate := (g.infer cfg rtt dropped n).estimate } := by
  rw [Guard.infer]
  split
  · rw [Guard.updateGradient2]
    dsimp only
    split <;> rfl
  · rw [Guard.updateAimd]
    split
    · rfl
    · split <;> rfl

theorem min?_concat (l : List ℚ) (x : ℚ) :
    (l ++ [x]).min? = if l.min?.all (x < ·) then some x else l.min? := by
  cases l with
  | nil => rfl
  | cons y l =>
    rw [List.cons_append, List.min?_cons', List.min?_cons', List.foldl_append, Option.all_some]
    split
    · rename_i hlt
      exact congrArg some (min_eq_right (of_decide_eq_true hlt).le)
    · rename_i hle
      exact congrArg some (min_eq_left (not_lt.mp (by simpa using hle)))

theorem Follows.acquire {h : History} (hf : Follows cfg g h) (now : ℚ) :
    Follows cfg (acquire cfg g now).1 h := by
  obtain ⟨first, hm⟩ := hf.measures
  rw [ThrottleKit.Adaptive.acquire]
  split
  · exact hf
  · exact ⟨⟨first, hm.nextSeq_eq, hm.head_le_tail, hm.holds, hm.noload⟩, hf.probe⟩

/-- A sample of normal operation. -/
theorem Follows.sample {h : History} (hf : Follows cfg g h) (hprobing : g.probing = false)
    (now rtt : ℚ) (dropped : Bool) (n : ℤ) :
    Follows cfg (g.sample cfg now rtt dropped n) ⟨h.samples ++ [rtt], []⟩ := by
  obtain ⟨first, hm⟩ := hf.measures
  have hnext := hm.recordRtt rtt
  rw [Guard.sample, infer_eq]
  dsimp only
  split
  · exact ⟨⟨first, hnext.nextSeq_eq, hnext.head_le_tail, hnext.holds, hnext.noload⟩,
      fun _ => ⟨rfl, rfl⟩⟩
  · refine ⟨⟨first, hnext.nextSeq_eq, hnext.head_le_tail, hnext.holds, hnext.noload⟩, ?_⟩
    intro hprobe
    exact absurd (hprobing.symm.trans hprobe) Bool.false_ne_true

/-- A sample of a probe. -/
theorem Follows.probeSample {h : History} (hf : Follows cfg g h) (hprobing : g.probing = true)
    (now rtt : ℚ) (dropped : Bool) (n : ℤ) :
    Follows cfg (g.probeSample cfg now rtt dropped n)
      (if dropped = false ∧ n ≤ cfg.probeLimit then
        if ((h.clean ++ [rtt]).length : ℤ) ≥ cfg.probeSamples then
          ⟨(h.clean ++ [rtt]).min?.toList, []⟩
        else ⟨h.samples, h.clean ++ [rtt]⟩
      else h) := by
  obtain ⟨first, hm⟩ := hf.measures
  obtain ⟨hmin, hcount⟩ := hf.probe hprobing
  have hcount' : ((h.clean ++ [rtt]).length : ℤ) = g.probeCount + 1 := by
    rw [List.length_append, List.length_singleton, hcount]
    rfl
  have hmin' : (h.clean ++ [rtt]).min?
      = if g.probeMin.all (rtt < ·) then some rtt else g.probeMin := by
    rw [min?_concat, hmin]
  rw [Guard.probeSample, hcount', hmin']
  by_cases hclean : dropped = false ∧ n ≤ cfg.probeLimit
  · rw [if_pos hclean, if_pos hclean]
    dsimp only
    by_cases hlast : g.probeCount + 1 ≥ cfg.probeSamples
    · rw [if_pos hlast, if_pos hlast, ← hmin']
      -- the smallest clean sample is there
      have hsome : (h.clean ++ [rtt]).min?.isSome :=
        List.isSome_min?_of_ne_nil (List.append_ne_nil_of_right_ne_nil _ (List.cons_ne_nil _ _))
      obtain ⟨fresh, hfresh⟩ := Option.isSome_iff_exists.mp hsome
      refine ⟨⟨g.nextSeq, ?_⟩, fun hprobe => absurd hprobe Bool.false_ne_true⟩
      rw [hfresh]
      exact measures_finishProbe cfg
        { g with probeMin := some fresh, probeCount := g.probeCount + 1 } now
    · rw [if_neg hlast, if_neg hlast]
      exact ⟨⟨first, hm.nextSeq_eq, hm.head_le_tail, hm.holds, hm.noload⟩,
        fun _ => ⟨hmin'.symm, hcount'.symm⟩⟩
  · rw [if_neg hclean, if_neg hclean]
    exact hf

theorem Follows.step {h : History} (hf : Follows cfg g h) (op : Op) :
    Follows cfg (step cfg g op) (h.step cfg g op) := by
  cases op with
  | acquire now => exact hf.acquire now
  | release lease dropped now =>
    rw [ThrottleKit.Adaptive.step, Lease.doRelease, History.step]
    split
    · exact hf
    rw [Guard.settle]
    obtain ⟨first, hm⟩ := hf.measures
    have hfreed : Follows cfg
        { g with inflightCount := g.inflightCount - 1, lastRtt := lease.rtt now } h :=
      ⟨⟨first, hm.nextSeq_eq, hm.head_le_tail, hm.holds, hm.noload⟩, hf.probe⟩
    dsimp only
    by_cases hprobing : g.probing = true
    · rw [if_pos hprobing, if_neg (by rw [hprobing]; decide)]
      exact hfreed.probeSample hprobing now (lease.rtt now) dropped lease.inflightAtAcquire
    · rw [Bool.not_eq_true] at hprobing
      rw [if_neg (by rw [hprobing]; decide), if_pos (by rw [hprobing]; rfl)]
      exact hfreed.sample hprobing now (lease.rtt now) dropped lease.inflightAtAcquire

/-- **The ring follows every run.** -/
theorem follows_run (cfg : Config) (start : ℚ) (ops : List Op) :
    Follows cfg (run cfg start ops).1 (run cfg start ops).2 := by
  induction ops using List.reverseRecOn with
  | nil => exact follows_new cfg start
  | append_singleton ops op ih =>
    rw [run, List.foldl_append]
    exact ih.step op

/-- What the laws read of a guard. -/
theorem infer_estimate_congr {g g' : Guard} (hestimate : g.estimate = g'.estimate)
    (hnoload : g.rttNoload = g'.rttNoload) (cfg : Config) (rtt : ℚ) (dropped : Bool) (n : ℤ) :
    (g.infer cfg rtt dropped n).estimate = (g'.infer cfg rtt dropped n).estimate := by
  rw [Guard.infer, Guard.infer]
  split
  · rw [Guard.updateGradient2, Guard.updateGradient2, hestimate, hnoload]
    split
    · exact hestimate
    · rfl
  · rw [Guard.updateAimd, Guard.updateAimd, hestimate, hnoload]
    split
    · rfl
    · split
      · rfl
      · exact hestimate

/-- A sample is recorded before the law is applied. -/
theorem sample_reads (cfg : Config) (g : Guard) (now rtt : ℚ) (dropped : Bool) (n : ℤ) :
    (g.sample cfg now rtt dropped n).rttNoload = (g.recordRtt cfg rtt).rttNoload ∧
      (g.sample cfg now rtt dropped n).estimate
        = ((g.recordRtt cfg rtt).infer cfg rtt dropped n).estimate := by
  have hnoload : ((g.recordRtt cfg rtt).infer cfg rtt dropped n).rttNoload
      = (g.recordRtt cfg rtt).rttNoload := by
    rw [infer_eq]
  rw [Guard.sample]
  split
  · exact ⟨hnoload, rfl⟩
  · exact ⟨hnoload, rfl⟩

/-- **The no-load latency is the smallest of the last samples.** After any acquisitions and
releases, the next release outside a probe feeds the law with the minimum of the last samples since
the last probe ended, its own among them; and the slot that its sample is written to is that of no
candidate that stays. -/
theorem noload_is_windowed_minimum (cfg : Config) (start : ℚ) (ops : List Op) {lease : Lease}
    (hheld : lease.released = false) (hprobing : (run cfg start ops).1.probing = false)
    (dropped : Bool) (now : ℚ) :
    (∃ noload, cfg.windowedMin ((run cfg start ops).2.samples ++ [lease.rtt now]) = some noload ∧
      (lease.doRelease cfg (run cfg start ops).1 dropped now).1.rttNoload = noload ∧
      (lease.doRelease cfg (run cfg start ops).1 dropped now).1.estimate
        = (Guard.infer cfg { (run cfg start ops).1 with rttNoload := noload } (lease.rtt now)
            dropped lease.inflightAtAcquire).estimate) ∧
    ∀ i, (run cfg start ops).1.expiredHead cfg ≤ i →
      i < (run cfg start ops).1.keptTail cfg (lease.rtt now) →
        i % cfg.cap ≠ (run cfg start ops).1.keptTail cfg (lease.rtt now) % cfg.cap := by
  have hf := follows_run cfg start ops
  generalize (run cfg start ops).1 = g at hf hprobing ⊢
  generalize (run cfg start ops).2 = h at hf ⊢
  obtain ⟨first, hm⟩ := hf.measures
  constructor
  · have hnext := hm.recordRtt (lease.rtt now)
    have hnoload := hnext.noload (List.append_ne_nil_of_right_ne_nil _ (List.cons_ne_nil _ _))
    refine ⟨_, hnoload, ?_⟩
    have hsettled : (lease.doRelease cfg g dropped now).1
        = Guard.sample cfg { g with inflightCount := g.inflightCount - 1, lastRtt := lease.rtt now }
            now (lease.rtt now) dropped lease.inflightAtAcquire := by
      rw [Lease.doRelease, if_neg (by rw [hheld]; decide), Guard.settle]
      exact if_neg (by rw [hprobing]; decide)
    obtain ⟨hafter, hestimate⟩ := sample_reads cfg
      { g with inflightCount := g.inflightCount - 1, lastRtt := lease.rtt now } now (lease.rtt now)
      dropped lease.inflightAtAcquire
    rw [hsettled, hafter, hestimate]
    refine ⟨rfl, ?_⟩
    apply infer_estimate_congr
    · rfl
    · rfl
  · intro i hle hlt
    obtain ⟨d, hd, hring⟩ := hm.holds
    obtain ⟨hkept, hroom, -⟩ := hm.slice_keptTail hd hring (lease.rtt now)
    have hbefore : i - g.expiredHead cfg < g.keptTail cfg (lease.rtt now) - g.expiredHead cfg := by
      omega
    have hslot := slot_ne (g.expiredHead cfg) hbefore hroom
    rwa [Nat.add_sub_cancel' hle, Nat.add_sub_cancel' hkept] at hslot

/-- A window of two samples, and a probe of one every ten milliseconds. -/
def windowOfTwo : Config :=
  { Config.defaults with
    algorithm := .aimd
    window := 2
    recal := some ⟨10, 1, 1⟩ }

/-- Latencies of five and seven, a probe that measures three, and one of eight. -/
def fourReleases : List Op :=
  [.release ⟨0, 1, false⟩ false 5, .release ⟨5, 1, false⟩ false 12,
    .release ⟨12, 1, false⟩ false 15, .release ⟨15, 1, false⟩ false 23]

/-- The guard after them. -/
def afterFour : Guard := (run windowOfTwo 0 fourReleases).1

/-- The probe starts the samples anew. -/
example : (run windowOfTwo 0 fourReleases).2.samples = [3, 8] := by decide +kernel

theorem noload_is_windowed_minimum_four_releases :
    (∃ noload, windowOfTwo.windowedMin
        ((run windowOfTwo 0 fourReleases).2.samples ++ [Lease.rtt ⟨18, 2, false⟩ 24])
          = some noload ∧
      (Lease.doRelease windowOfTwo afterFour ⟨18, 2, false⟩ true 24).1.rttNoload = noload ∧
      (Lease.doRelease windowOfTwo afterFour ⟨18, 2, false⟩ true 24).1.estimate
        = (Guard.infer windowOfTwo { afterFour with rttNoload := noload }
            (Lease.rtt ⟨18, 2, false⟩ 24) true 2).estimate) ∧
    ∀ i, afterFour.expiredHead windowOfTwo ≤ i →
      i < afterFour.keptTail windowOfTwo (Lease.rtt ⟨18, 2, false⟩ 24) →
        i % windowOfTwo.cap
          ≠ afterFour.keptTail windowOfTwo (Lease.rtt ⟨18, 2, false⟩ 24) % windowOfTwo.cap :=
  noload_is_windowed_minimum windowOfTwo 0 fourReleases rfl (by decide +kernel) true 24

end ThrottleKit.Adaptive
