import ThrottleKit.Lib.LittleEndian
import ThrottleKit.Sketch.CountMinSketch

/-!
# Sketches as bytes

A header of sixteen bytes (width and depth in four bytes each, the total as a double), then the
counters in four bytes each. The counters are written through a view of the host's byte order,
which is taken to be little-endian, as the rest is.

Bytes come from an untrusted peer: the reader rejects a total that is not a number from zero up,
and a length that does not fit the shape in the header. A total that overflowed to `Infinity` is
rejected for the same reason, and a width or depth that does not fit its four bytes makes the length
wrong; so a sketch that went that far is not read back at all.

## Main results

* `decode_toBytes_iff` — when a sketch is read back unchanged
* `snapshot_of_decode` — and that it is never read back otherwise
* `rejects_of_length` — bytes of a length that does not fit their header
-/

namespace ThrottleKit.Sketch

open LittleEndian

/-- Bytes of the header. -/
def headerBytes : ℕ := 16

/-- Encode a sketch as compact little-endian bytes. -/
def CountMinSketch.toBytes {cfg : Config} (s : CountMinSketch cfg) : List UInt8 :=
  encode 4 cfg.width ++ (encode 4 cfg.depth ++ (encode 8 s.total.toBits.toNat
    ++ encodeAll 4 (s.counters.map UInt32.toNat)))

/-- The width, the depth and the total that a header says. -/
def headerWidth (bytes : List UInt8) : ℕ := field 4 0 bytes

@[inherit_doc headerWidth]
def headerDepth (bytes : List UInt8) : ℕ := field 4 4 bytes

@[inherit_doc headerWidth]
def headerTotal (bytes : List UInt8) : Float := Float.ofBits (UInt64.ofNat (field 8 8 bytes))

/-- The length of the bytes of a sketch of the shape in the header. -/
def expectedLength (bytes : List UInt8) : ℕ :=
  headerBytes + headerWidth bytes * headerDepth bytes * 4

/-- The three ways `sketchSnapshotFromBytes` fails. -/
inductive DecodeError
  | tooShort (byteLength : ℕ)
  | badTotal (total : Float)
  | lengthMismatch (expected : ℕ)

/-- The message of the thrown `Error`, given how a double is shown. -/
def DecodeError.message (shown : Float → String) : DecodeError → String
  | .tooShort byteLength => "sketch bytes too short: " ++ toString byteLength ++ " < "
    ++ toString headerBytes
  | .badTotal total => "sketch snapshot has a non-finite or negative total: " ++ shown total
  | .lengthMismatch expected => "sketch bytes length mismatch: expected " ++ toString expected

/-- The counters after the header. -/
def decodeCounters (n : ℕ) (bytes : List UInt8) : List UInt32 :=
  (decodeAll 4 n (bytes.drop headerBytes)).map UInt32.ofNat

/-- Decode bytes produced by `toBytes` back into a snapshot. -/
def sketchSnapshotFromBytes (bytes : List UInt8) : Except DecodeError Snapshot :=
  if bytes.length < headerBytes then .error (.tooShort bytes.length)
  else if (headerTotal bytes).isFinite = false ∨ headerTotal bytes < 0 then
    .error (.badTotal (headerTotal bytes))
  else if bytes.length ≠ expectedLength bytes then .error (.lengthMismatch (expectedLength bytes))
  else
    .ok ⟨headerWidth bytes, headerDepth bytes, headerTotal bytes,
      decodeCounters (headerWidth bytes * headerDepth bytes) bytes⟩

/-- **Bytes of a length that does not fit their header are rejected.** -/
theorem rejects_of_length {bytes : List UInt8} (h : bytes.length ≠ expectedLength bytes) :
    ∃ e, sketchSnapshotFromBytes bytes = .error e := by
  unfold sketchSnapshotFromBytes
  split
  · exact ⟨_, rfl⟩
  · split
    · exact ⟨_, rfl⟩
    · exact ⟨_, rfl⟩

section RoundTrip

variable {cfg : Config} (s : CountMinSketch cfg)

theorem length_toBytes : s.toBytes.length = headerBytes + cfg.size * 4 := by
  simp only [CountMinSketch.toBytes, List.length_append, length_encode, length_encodeAll,
    List.length_map, s.size_eq]
  show 4 + (4 + (8 + 4 * cfg.size)) = 16 + cfg.size * 4
  omega

theorem headerWidth_toBytes : headerWidth s.toBytes = cfg.width % 2 ^ 32 := field_prepend _

theorem headerDepth_toBytes : headerDepth s.toBytes = cfg.depth % 2 ^ 32 := by
  have hskip := field_skip (encode 4 cfg.width) (encode 4 cfg.depth
    ++ (encode 8 s.total.toBits.toNat ++ encodeAll 4 (s.counters.map UInt32.toNat))) 4 0
  rw [length_encode] at hskip
  exact hskip.trans (field_prepend _)

/-- The total and the counters, past the shape. -/
theorem toBytes_eq : s.toBytes = (encode 4 cfg.width ++ encode 4 cfg.depth)
    ++ (encode 8 s.total.toBits.toNat ++ encodeAll 4 (s.counters.map UInt32.toNat)) := by
  rw [CountMinSketch.toBytes, List.append_assoc]

theorem headerTotal_toBytes : headerTotal s.toBytes = s.total := by
  have hskip := field_skip (encode 4 cfg.width ++ encode 4 cfg.depth)
    (encode 8 s.total.toBits.toNat ++ encodeAll 4 (s.counters.map UInt32.toNat)) 8 0
  rw [List.length_append, length_encode, length_encode, ← toBytes_eq, field_prepend,
    Nat.mod_eq_of_lt (show s.total.toBits.toNat < 256 ^ 8 from s.total.toBits.toNat_lt)] at hskip
  rw [headerTotal, hskip, UInt64.ofNat_toNat, Binary64.ofBits_toBits]

theorem decodeCounters_toBytes : decodeCounters cfg.size s.toBytes = s.counters := by
  have hdrop : s.toBytes.drop headerBytes = encodeAll 4 (s.counters.map UInt32.toNat) := by
    rw [toBytes_eq, ← List.append_assoc]
    exact List.drop_left' (by simp [headerBytes])
  have hfit : ∀ n ∈ s.counters.map UInt32.toNat, n < 256 ^ 4 := by
    intro n hn
    obtain ⟨c, -, rfl⟩ := List.mem_map.mp hn
    exact c.toNat_lt
  have hread := decodeAll_encodeAll hfit
  rw [List.length_map, s.size_eq] at hread
  rw [decodeCounters, hdrop, hread, List.map_map]
  exact (List.map_congr_left fun c _ => UInt32.ofNat_toNat).trans (List.map_id _)

theorem decode_toBytes (hfinite : s.total.isFinite = true) (hwidth : cfg.width < 2 ^ 32)
    (hdepth : cfg.depth < 2 ^ 32) : sketchSnapshotFromBytes s.toBytes = .ok s.snapshot := by
  have hw : headerWidth s.toBytes = cfg.width := by
    rw [headerWidth_toBytes, Nat.mod_eq_of_lt hwidth]
  have hd : headerDepth s.toBytes = cfg.depth := by
    rw [headerDepth_toBytes, Nat.mod_eq_of_lt hdepth]
  have hsize : headerWidth s.toBytes * headerDepth s.toBytes = cfg.size := by
    rw [hw, hd, Config.size, Nat.mul_comm]
  have hlen : s.toBytes.length = expectedLength s.toBytes := by
    rw [length_toBytes, expectedLength, hsize]
  have htotal : ¬ ((headerTotal s.toBytes).isFinite = false ∨ headerTotal s.toBytes < 0) := by
    rw [headerTotal_toBytes, hfinite]
    rintro (h | h)
    · cases h
    · exact s.total_nonneg.not_lt_zero h
  unfold sketchSnapshotFromBytes
  rw [if_neg (by rw [length_toBytes]; omega), if_neg htotal, if_neg (not_not.mpr hlen), hsize,
    decodeCounters_toBytes, headerTotal_toBytes, hw, hd]
  rfl

/-- Two factors that shrank, neither of them. -/
theorem eq_of_mul_eq {a b w d : ℕ} (ha : a ≤ w) (hb : b ≤ d) (hw : 0 < w) (hd : 0 < d)
    (h : a * b = w * d) : a = w ∧ b = d := by
  have hb' : b = d := by
    refine hb.antisymm (Nat.le_of_mul_le_mul_left ?_ hw)
    calc w * d = a * b := h.symm
      _ ≤ w * b := Nat.mul_le_mul_right b ha
  subst hb'
  exact ⟨Nat.eq_of_mul_eq_mul_right hd h, rfl⟩

/-- A sketch that is read back has a finite total and a shape that fits the header. -/
theorem fits_of_decode {snap : Snapshot} (h : sketchSnapshotFromBytes s.toBytes = .ok snap) :
    s.total.isFinite = true ∧ cfg.width < 2 ^ 32 ∧ cfg.depth < 2 ^ 32 := by
  unfold sketchSnapshotFromBytes at h
  split at h
  · cases h
  · split at h
    · cases h
    · rename_i htotal
      split at h
      · cases h
      · rename_i hlen
        rw [not_not, length_toBytes, expectedLength, headerWidth_toBytes, headerDepth_toBytes,
          Config.size, Nat.mul_comm cfg.depth] at hlen
        obtain ⟨hw, hd⟩ := eq_of_mul_eq (Nat.mod_le cfg.width (2 ^ 32))
          (Nat.mod_le cfg.depth (2 ^ 32)) cfg.width_pos cfg.depth_pos (by omega)
        rw [headerTotal_toBytes] at htotal
        refine ⟨Bool.eq_true_of_not_eq_false fun hf => htotal (.inl hf), ?_, ?_⟩
        · rw [← hw]
          exact Nat.mod_lt _ (by decide)
        · rw [← hd]
          exact Nat.mod_lt _ (by decide)

/-- **A sketch is read back unchanged when its total is finite and its shape fits the header.** -/
theorem decode_toBytes_iff : sketchSnapshotFromBytes s.toBytes = .ok s.snapshot ↔
    s.total.isFinite = true ∧ cfg.width < 2 ^ 32 ∧ cfg.depth < 2 ^ 32 :=
  ⟨fits_of_decode s, fun h => decode_toBytes s h.1 h.2.1 h.2.2⟩

/-- **It is read back unchanged or not at all.** -/
theorem snapshot_of_decode {snap : Snapshot} (h : sketchSnapshotFromBytes s.toBytes = .ok snap) :
    snap = s.snapshot := by
  rw [(decode_toBytes_iff s).mpr (fits_of_decode s h)] at h
  exact (Except.ok.inj h).symm

end RoundTrip

end ThrottleKit.Sketch
