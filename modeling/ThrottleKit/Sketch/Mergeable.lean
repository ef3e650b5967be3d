import ThrottleKit.Lib.Machine
import ThrottleKit.Sketch.Wire

/-!
# Exchanging sketches

Nodes of one cluster share the shape and the hashing of their sketches, and use the plain update.
Each of them counts what it sees; at any time it may give out a snapshot, or the bytes of one, which
may be decoded and folded into the sketch of any node, at any later time, any number of times or
never. An operation that throws changes nothing.

Every sketch, byte string and snapshot is kept together with the updates that went into it, in the
order it took them in: that is the stream a result is compared with. A snapshot that is folded in
twice brings its updates twice.

What holds of a sketch depends on its stream alone, so it does not matter how the stream was spread
over the nodes. That a sketch can be decoded is another matter, as `not_exchange_exact` shows: the
total may overflow, though the counters stop at their ceiling.

## Main definitions

* `Traced` — a value with the updates that went into it
* `exchange` — the nodes, and what they gave out
* `Faithful` — the counters are those of the updates

## Main results

* `faithful_of_run` — in every run
* `exchange_exact` — the sketches against one that was fed the whole stream
-/

namespace ThrottleKit.Sketch

/-- A value with the updates that went into it. -/
structure Traced (α : Type) where
  value : α
  stream : List (Key × ℕ)

/-- The nodes, the byte strings that were encoded, and the snapshots that were taken or decoded,
the newest first. -/
structure Exchange (ι : Type) (cfg : Config) where
  nodes : ι → Traced (CountMinSketch cfg)
  wires : List (Traced (List UInt8))
  snaps : List (Traced Snapshot)

/-- An operation on the sketch of a node, or on bytes. -/
inductive Op (ι : Type)
  | add (node : ι) (key : Key) (count : ℚ)
  | reset (node : ι)
  | snapshot (node : ι)
  | toBytes (node : ι)
  | decode (wire : ℕ)
  | merge (node : ι) (snap : ℕ)

section Nodes

variable {ι : Type} {cfg : Config}

/-- `add` of a mergeable sketch, which validates the count. -/
def checkedAdd (t : Traced (CountMinSketch cfg)) (key : Key) (count : ℚ) :
    Traced (CountMinSketch cfg) :=
  match requireCount "mergeableSketch.count" count with
  | .ok n => ⟨(t.value.add key n).1, t.stream ++ [(key, n)]⟩
  | .error _ => t

/-- `merge` of a mergeable sketch. -/
def checkedMerge (t : Traced (CountMinSketch cfg)) (snap : Traced Snapshot) :
    Traced (CountMinSketch cfg) :=
  match t.value.mergeSnapshot snap.value with
  | .ok s => ⟨s, t.stream ++ snap.stream⟩
  | .error _ => t

/-- The snapshots once these bytes were decoded. -/
def decoded (snaps : List (Traced Snapshot)) (wire : Traced (List UInt8)) :
    List (Traced Snapshot) :=
  match sketchSnapshotFromBytes wire.value with
  | .ok snap => ⟨snap, wire.stream⟩ :: snaps
  | .error _ => snaps

/-- What an operation does. -/
def Exchange.next [DecidableEq ι] (x : Exchange ι cfg) : Op ι → Exchange ι cfg
  | .add node key count =>
    { x with nodes := Function.update x.nodes node (checkedAdd (x.nodes node) key count) }
  | .reset node =>
    { x with nodes := Function.update x.nodes node ⟨(x.nodes node).value.clear, []⟩ }
  | .snapshot node =>
    { x with snaps := ⟨(x.nodes node).value.snapshot, (x.nodes node).stream⟩ :: x.snaps }
  | .toBytes node =>
    { x with wires := ⟨(x.nodes node).value.toBytes, (x.nodes node).stream⟩ :: x.wires }
  | .decode wire =>
    match x.wires[wire]? with
    | some w => { x with snaps := decoded x.snaps w }
    | none => x
  | .merge node snap =>
    match x.snaps[snap]? with
    | some p => { x with nodes := Function.update x.nodes node (checkedMerge (x.nodes node) p) }
    | none => x

/-- The system of the nodes. -/
def exchange (ι : Type) [DecidableEq ι] (cfg : Config) : Machine (Exchange ι cfg) (Op ι) Empty :=
  fun x op => some (x.next op, [])

/-- New nodes, and nothing given out. -/
def Exchange.start (ι : Type) (cfg : Config) : Exchange ι cfg where
  nodes := fun _ => ⟨.empty cfg, []⟩
  wires := []
  snaps := []

/-- One sketch that is fed a stream. -/
def feed (cfg : Config) (stream : List (Key × ℕ)) : CountMinSketch cfg :=
  stream.foldl (fun s u => (s.add u.1 u.2).1) (.empty cfg)

/-! ### The counters are those of the updates -/

/-- The counters are those of plain updates, once each. -/
def Counts (s : CountMinSketch cfg) (stream : List (Key × ℕ)) : Prop :=
  table s.counters = CountMin.exact maxU32 (slots cfg) stream

theorem counts_empty : Counts (.empty cfg) [] := by
  rw [Counts, CountMinSketch.table_empty, CountMin.exact_nil]

theorem counts_clear (s : CountMinSketch cfg) : Counts s.clear [] := by
  rw [Counts, CountMinSketch.table_clear, CountMin.exact_nil]

variable {s t : CountMinSketch cfg} {stream stream' : List (Key × ℕ)}

theorem Counts.add (hplain : cfg.conservative = false) (h : Counts s stream) (key : Key) (n : ℕ) :
    Counts (s.add key n).1 (stream ++ [(key, n)]) := by
  rw [Counts, CountMinSketch.table_add_plain hplain, h, CountMin.bump_exact]

theorem Counts.merge {s' : CountMinSketch cfg} (h : Counts s stream) (h' : Counts t stream')
    (hmerge : s.mergeSnapshot t.snapshot = .ok s') : Counts s' (stream ++ stream') := by
  have ht : table t.snapshot.counters = CountMin.exact maxU32 (slots cfg) stream' := h'
  rw [Counts, CountMinSketch.table_mergeSnapshot hmerge, h, ht, CountMin.merge_exact]

theorem counts_feed (hplain : cfg.conservative = false) (stream : List (Key × ℕ)) :
    Counts (feed cfg stream) stream := by
  induction stream using List.reverseRecOn with
  | nil => exact counts_empty
  | append_singleton stream u ih =>
    rw [feed, List.foldl_append]
    exact ih.add hplain u.1 u.2

theorem eq_of_table_eq {a b : List UInt32} (hlen : a.length = b.length) (h : table a = table b) :
    a = b := by
  refine List.ext_getElem hlen fun i ha hb => ?_
  have hi : table a i = table b i := congrFun h i
  exact UInt32.toNat_inj.mp (by simpa [table, List.getD_eq_getElem?_getD, ha, hb] using hi)

/-- Sketches of the same updates have the same counters, in whatever order they took them in. -/
theorem Counts.counters_eq (h : Counts s stream) (h' : Counts t stream')
    (hperm : stream.Perm stream') : s.counters = t.counters := by
  refine eq_of_table_eq (s.size_eq.trans t.size_eq.symm) ?_
  rw [h, h', CountMin.exact_perm hperm]

/-- A sketch never underestimates. -/
theorem Counts.le_estimate (h : Counts s stream) (key : Key) :
    WithTop.some (min (CountMin.trueCount stream key) maxU32) ≤ s.estimate key := by
  have hcovers : CountMin.Covers maxU32 (slots cfg) stream
      (CountMin.exact maxU32 (slots cfg) stream) := CountMin.covers_exact stream
  rw [CountMinSketch.estimate, least_eq, h]
  exact hcovers.le_estimate key

/-- Every node counts its stream, and all that was given out is of sketches that did. -/
structure Faithful (x : Exchange ι cfg) : Prop where
  nodes : ∀ i, Counts (x.nodes i).value (x.nodes i).stream
  wires : ∀ w ∈ x.wires, ∃ s : CountMinSketch cfg, Counts s w.stream ∧ w.value = s.toBytes
  snaps : ∀ p ∈ x.snaps, ∃ s : CountMinSketch cfg, Counts s p.stream ∧ p.value = s.snapshot

theorem faithful_start : Faithful (Exchange.start ι cfg) where
  nodes _ := counts_empty
  wires _ hw := by cases hw
  snaps _ hp := by cases hp

variable {x : Exchange ι cfg}

theorem counts_checkedAdd (hplain : cfg.conservative = false) {t : Traced (CountMinSketch cfg)}
    (ht : Counts t.value t.stream) (key : Key) (count : ℚ) :
    Counts (checkedAdd t key count).value (checkedAdd t key count).stream := by
  unfold checkedAdd
  split
  · exact ht.add hplain _ _
  · exact ht

theorem counts_checkedMerge {t : Traced (CountMinSketch cfg)} {p : Traced Snapshot}
    (ht : Counts t.value t.stream)
    (hp : ∃ s : CountMinSketch cfg, Counts s p.stream ∧ p.value = s.snapshot) :
    Counts (checkedMerge t p).value (checkedMerge t p).stream := by
  obtain ⟨s, hs, heq⟩ := hp
  unfold checkedMerge
  split
  · rename_i s' hmerge
    rw [heq] at hmerge
    exact ht.merge hs hmerge
  · exact ht

/-- What was decoded is the snapshot of the sketch that was encoded. -/
theorem Faithful.decode (h : Faithful x) {w : Traced (List UInt8)} (hw : w ∈ x.wires) :
    Faithful { x with snaps := decoded x.snaps w } where
  nodes := h.nodes
  wires := h.wires
  snaps p hp := by
    obtain ⟨s, hs, heq⟩ := h.wires w hw
    change p ∈ decoded x.snaps w at hp
    unfold decoded at hp
    split at hp
    · rename_i snap hsnap
      rw [heq] at hsnap
      rcases List.mem_cons.mp hp with rfl | hmem
      · exact ⟨s, hs, snapshot_of_decode s hsnap⟩
      · exact h.snaps p hmem
    · exact h.snaps p hp

variable [DecidableEq ι]

/-- A node is set to a sketch that counts its stream. -/
theorem Faithful.update (h : Faithful x) (i : ι) {t : Traced (CountMinSketch cfg)}
    (ht : Counts t.value t.stream) : Faithful { x with nodes := Function.update x.nodes i t } where
  nodes j := by
    by_cases hij : j = i
    · subst hij
      simpa using ht
    · simpa [Function.update_of_ne hij] using h.nodes j
  wires := h.wires
  snaps := h.snaps

/-- **Every operation keeps the counters those of the updates.** -/
theorem Faithful.next (hplain : cfg.conservative = false) (h : Faithful x) (op : Op ι) :
    Faithful (x.next op) := by
  cases op with
  | add node key count => exact h.update node (counts_checkedAdd hplain (h.nodes node) key count)
  | reset node => exact h.update node (counts_clear _)
  | snapshot node =>
    exact ⟨h.nodes, h.wires, List.forall_mem_cons.mpr ⟨⟨_, h.nodes node, rfl⟩, h.snaps⟩⟩
  | toBytes node =>
    exact ⟨h.nodes, List.forall_mem_cons.mpr ⟨⟨_, h.nodes node, rfl⟩, h.wires⟩, h.snaps⟩
  | decode wire =>
    simp only [Exchange.next]
    split
    · rename_i w hw
      exact h.decode (List.mem_of_getElem? hw)
    · exact h
  | merge node snap =>
    simp only [Exchange.next]
    split
    · rename_i p hp
      exact h.update node
        (counts_checkedMerge (h.nodes node) (h.snaps p (List.mem_of_getElem? hp)))
    · exact h

theorem faithful_of_run (hplain : cfg.conservative = false) {log : List Empty}
    (h : (exchange ι cfg).Run (fun _ _ => True) (.start ι cfg) log x) : Faithful x := by
  refine Machine.Run.invariant (I := fun x _ => Faithful x) faithful_start ?_ h
  intro x _ op x' _ hx _ hstep
  obtain ⟨rfl, -⟩ := Prod.mk.inj (Option.some.inj hstep)
  exact hx.next hplain op

/-- **The exchange of sketches, in every run.** The counters of a node are those of one sketch fed
the whole stream, in any order; no estimate is below the true count, up to the ceiling; an encoded
sketch is decoded unchanged exactly while its total is finite and its shape fits the header, and
else not at all; and bytes of a length that does not fit their header are rejected. -/
theorem exchange_exact (hplain : cfg.conservative = false) {log : List Empty}
    (h : (exchange ι cfg).Run (fun _ _ => True) (.start ι cfg) log x) :
    (∀ i whole, (x.nodes i).stream.Perm whole →
      (x.nodes i).value.counters = (feed cfg whole).counters) ∧
    (∀ i key, WithTop.some (min (CountMin.trueCount (x.nodes i).stream key) maxU32)
      ≤ (x.nodes i).value.estimate key) ∧
    (∀ i, sketchSnapshotFromBytes (x.nodes i).value.toBytes = .ok (x.nodes i).value.snapshot ↔
      (x.nodes i).value.total.isFinite = true ∧ cfg.width < 2 ^ 32 ∧ cfg.depth < 2 ^ 32) ∧
    (∀ i snap, sketchSnapshotFromBytes (x.nodes i).value.toBytes = .ok snap →
      snap = (x.nodes i).value.snapshot) ∧
    ∀ bytes, bytes.length ≠ expectedLength bytes →
      ∃ e, sketchSnapshotFromBytes bytes = .error e := by
  have hx := faithful_of_run hplain h
  refine ⟨fun i whole hperm => ?_, fun i key => (hx.nodes i).le_estimate key,
    fun i => decode_toBytes_iff _, fun i _ => snapshot_of_decode _, fun _ => rejects_of_length⟩
  exact (hx.nodes i).counters_eq (counts_feed hplain whole) hperm

/-- Operations in a row are a run. -/
theorem run_foldl (cfg : Config) (ops : List (Op ι)) :
    (exchange ι cfg).Run (fun _ _ => True) (.start ι cfg) []
      (ops.foldl Exchange.next (.start ι cfg)) := by
  induction ops using List.reverseRecOn with
  | nil => exact .nil
  | append_singleton ops op ih =>
    rw [List.foldl_append]
    exact ih.snoc trivial rfl

end Nodes

/-! ### Two runs -/

/-- Three columns and two rows. -/
def threeByTwo : Config where
  width := 3
  depth := 2
  conservative := false
  seed := 0x9e3779b1
  width_pos := three_columns_pos
  depth_pos := two_rows_pos

/-- The key `a`. -/
def keyA : Key := [97]

/-- Two nodes count one key near the ceiling, and the first is sent the sketch of the second, as
bytes. -/
def sentOnce : List (Op Bool) :=
  [.add true keyA 4294967290, .toBytes true, .add false keyA 5, .decode 0, .merge false 0,
    .add false keyA 3]

theorem exchange_exact_sentOnce :
    ((sentOnce.foldl Exchange.next (.start Bool threeByTwo)).nodes false).value.counters
        = (feed threeByTwo [(keyA, 4294967290), (keyA, 3), (keyA, 5)]).counters ∧
      WithTop.some (min (CountMin.trueCount
          ((sentOnce.foldl Exchange.next (.start Bool threeByTwo)).nodes false).stream keyA) maxU32)
        ≤ ((sentOnce.foldl Exchange.next (.start Bool threeByTwo)).nodes false).value.estimate
          keyA :=
  have h := exchange_exact rfl (run_foldl threeByTwo sentOnce)
  ⟨h.1 false _ (by decide +kernel), h.2.1 false keyA⟩

/-- A sketch that is sent itself has its total doubled. -/
theorem total_checkedMerge_self {cfg : Config} (s : CountMinSketch cfg) {k : ℕ} (hk : k ≤ 1023)
    (hs : s.total = Binary64.twoPow k) (stream : List (Key × ℕ)) :
    (checkedMerge ⟨s, stream⟩ ⟨s.snapshot, stream⟩).value.total = Binary64.twoPow (k + 1) := by
  obtain ⟨s', hmerge, htotal⟩ := CountMinSketch.mergeSnapshot_snapshot s s
  have hsnap : s.snapshot.total = Binary64.twoPow k := hs
  have hle : 0 ≤ Binary64.twoPow k := (Binary64.nonneg_twoPow hk).le
  rw [checkedMerge]
  dsimp only
  rw [hmerge]
  show s'.total = _
  rw [htotal, CountMinSketch.mergedTotal, hsnap, hs, if_pos ⟨Binary64.isFinite_twoPow hk, hle⟩,
    Binary64.twoPow_add_self hk]

/-- A node that counted one and is sent its own sketch time after time. -/
theorem exists_total_eq_twoPow {k : ℕ} (hk : k ≤ 1024) :
    ∃ log x, (exchange Unit threeByTwo).Run (fun _ _ => True) (.start Unit threeByTwo) log x ∧
      (x.nodes ()).value.total = Binary64.twoPow k := by
  induction k with
  | zero =>
    refine ⟨[], _, run_foldl threeByTwo [.add () keyA 1], ?_⟩
    decide +kernel
  | succ k ih =>
    obtain ⟨log, x, hrun, htotal⟩ := ih (by omega)
    have hnext := (hrun.snoc (a := .snapshot ()) trivial rfl).snoc (a := .merge () 0) trivial rfl
    refine ⟨_, _, hnext, ?_⟩
    simp only [Exchange.next, List.getElem?_cons_zero, Function.update_self]
    exact total_checkedMerge_self (x.nodes ()).value (by omega) htotal _

/-- Not every sketch can be sent as bytes: the total of one that was sent itself 1024 times is
`Infinity`. -/
theorem not_exchange_exact : ¬ ∀ log x,
    (exchange Unit threeByTwo).Run (fun _ _ => True) (.start Unit threeByTwo) log x →
      sketchSnapshotFromBytes (x.nodes ()).value.toBytes = .ok (x.nodes ()).value.snapshot := by
  intro h
  obtain ⟨log, x, hrun, htotal⟩ := exists_total_eq_twoPow le_rfl
  have hfinite := ((decode_toBytes_iff (x.nodes ()).value).mp (h log x hrun)).1
  rw [htotal] at hfinite
  exact absurd hfinite (by decide +kernel)

end ThrottleKit.Sketch
