import Mathlib.Logic.Function.Basic
import ThrottleKit.Core.Types

/-!
# The store

A store keeps one state per key and applies transitions to it atomically. A state that has outlived
its TTL is no longer seen by a transition; when that happens is decided by the store's own clock, so
here it is an operation of its own, `expire`. The expired state stays in its slot, marked as not
live, and is read by nothing but the next write.

## Main definitions

* `Store`, with `apply`, `expire` and `reset`
-/

namespace ThrottleKit

/-- What a store keeps for a key. -/
structure Slot (S : Type) where
  state : S
  /-- Whether the TTL of the state has yet to run out. -/
  live : Bool

/-- A store of states. -/
structure Store (S : Type) where
  slots : String → Option (Slot S)

namespace Store

variable {S R : Type}

/-- The store with nothing in it. -/
def empty : Store S := ⟨fun _ => none⟩

/-- The state a transition of `key` sees. -/
def read (s : Store S) (key : String) : Option S :=
  (s.slots key).bind fun slot => if slot.live then some slot.state else none

/-- `apply(key, transform)`. -/
def apply (s : Store S) (key : String) (transform : Option S → ApplyOutcome S R) : Store S × R :=
  let out := transform (s.read key)
  if out.persist then
    (⟨Function.update s.slots key (out.state.map fun state => ⟨state, true⟩)⟩, out.result)
  else (s, out.result)

/-- The TTL of the state of `key` runs out. -/
def expire (s : Store S) (key : String) : Store S :=
  ⟨Function.update s.slots key ((s.slots key).map fun slot => { slot with live := false })⟩

/-- `reset(key)`. -/
def reset (s : Store S) (key : String) : Store S := ⟨Function.update s.slots key none⟩

end Store

end ThrottleKit
