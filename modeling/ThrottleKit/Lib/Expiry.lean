import Mathlib.Data.List.Basic
import Mathlib.Data.Option.Basic
import Mathlib.Logic.Function.Basic
import Mathlib.Order.Lattice
import Mathlib.Tactic.Common

/-!
# Values that may be forgotten once they are due

A transition reads a value that may be absent, at an instant and with an input. It gives an answer,
and may write a new value together with the instant at which that value is *due*: from then on it
may be forgotten. A map keeps one value for each key; `forget` drops a value that is due, at a
moment nobody controls.

Nobody can tell whether due values are forgotten when a due value is as good as none. That is
`Forgettable`: a relation between values that no later call tells apart, which relates every value
to none from its due instant on. It is enough to look at one call and one written value. Which
calls write a value that is no longer needed when it is due is a condition on the calls.

## Main definitions

* `Transition`, `Op`, `answers` — transitions, what happens to a map of values, and the answers
* `Forgettable` — due values are as good as none
* `AllLast` — a condition on every call of a run

## Main results

* `Forgettable.answers_eq` — forgetting due values changes no answer
* `Forgettable.of_eq` — the case where a due value and none make the same transitions
-/

namespace Expiry

/-- From a value that may be absent, an instant and an input: the answer, and what is written. A
written value comes with the instant at which it is due. -/
abbrev Transition (T α S R : Type*) := Option S → T → α → R × Option (Option (S × T))

/-- What happens to a map of values. -/
inductive Op (K T α : Type*)
  | call (key : K) (now : T) (input : α)
  /-- The value of `key` is dropped if it is due. -/
  | forget (key : K) (now : T)

variable {K T α S R : Type*}

/-- When it happens. -/
def Op.time : Op K T α → T
  | .call _ now _ => now
  | .forget _ now => now

/-- Whether it is a call. -/
def Op.isCall : Op K T α → Bool
  | .call _ _ _ => true
  | .forget _ _ => false

/-- For each key, a value and the instant at which it is due. -/
abbrev Cells (K T S : Type*) := K → Option (S × T)

/-- A map with no values. -/
def Cells.empty : Cells K T S := fun _ => none

section Run

variable [DecidableEq K] [LinearOrder T]

/-- One call: the map it leaves, and its answer. -/
def call (m : Transition T α S R) (c : Cells K T S) (key : K) (now : T) (input : α) :
    Cells K T S × R :=
  let out := m ((c key).map Prod.fst) now input
  (match out.2 with
    | some written => Function.update c key written
    | none => c, out.1)

/-- The value of `key` is dropped if it is due. -/
def forget (c : Cells K T S) (key : K) (now : T) : Cells K T S :=
  if (c key).any fun v => v.2 ≤ now then Function.update c key none else c

/-- Every call among `ops` meets `lasts`, on the value it finds. -/
def AllLast (m : Transition T α S R) (lasts : Option S → T → α → Prop) :
    Cells K T S → List (Op K T α) → Prop
  | _, [] => True
  | c, .call key now input :: ops =>
    lasts ((c key).map Prod.fst) now input ∧ AllLast m lasts (call m c key now input).1 ops
  | c, .forget key now :: ops => AllLast m lasts (forget c key now) ops

instance AllLast.decidable (m : Transition T α S R) (lasts : Option S → T → α → Prop)
    [∀ v now input, Decidable (lasts v now input)] :
    ∀ (c : Cells K T S) (ops : List (Op K T α)), Decidable (AllLast m lasts c ops)
  | _, [] => .isTrue trivial
  | c, .call key now input :: ops =>
    have := AllLast.decidable m lasts (call m c key now input).1 ops
    inferInstanceAs (Decidable (_ ∧ _))
  | c, .forget key now :: ops => AllLast.decidable m lasts (forget c key now) ops

theorem AllLast.imp {m : Transition T α S R} {lasts lasts' : Option S → T → α → Prop}
    (himp : ∀ v now input, lasts v now input → lasts' v now input) :
    ∀ {c : Cells K T S} {ops : List (Op K T α)}, AllLast m lasts c ops → AllLast m lasts' c ops
  | _, [], _ => trivial
  | _, .call _ _ _ :: _, h => ⟨himp _ _ _ h.1, AllLast.imp himp h.2⟩
  | c, .forget key now :: ops, h =>
    show AllLast m lasts' (forget c key now) ops from AllLast.imp himp h

/-- The answers of the calls among `ops`, in order. -/
def answers (m : Transition T α S R) : Cells K T S → List (Op K T α) → List R
  | _, [] => []
  | c, .call key now input :: ops =>
    (call m c key now input).2 :: answers m (call m c key now input).1 ops
  | c, .forget key now :: ops => answers m (forget c key now) ops

end Run

/-! ### Due values as good as none -/

variable [LinearOrder T]

/-- What is written on either side is written on the other, due at the same instant, and not told
apart from `now` on. -/
def SameWrite (same : T → Option S → Option S → Prop) (now : T) :
    Option (Option (S × T)) → Option (Option (S × T)) → Prop
  | none, none => True
  | some w, some w' =>
    same now (w.map Prod.fst) (w'.map Prod.fst) ∧ w.map Prod.snd = w'.map Prod.snd
  | _, _ => False

/-- Due values are as good as none. `good t v` holds of the values that calls up to `t` can leave,
and `same t v v'` when no call from `t` on tells `v` from `v'`. The calls that meet `lasts` write
values that are as good as none once they are due. -/
structure Forgettable (m : Transition T α S R) (lasts : Option S → T → α → Prop)
    (good : T → Option S → Prop) (same : T → Option S → Option S → Prop) : Prop where
  good_none : ∀ t, good t none
  good_mono : ∀ {t t' v}, t ≤ t' → good t v → good t' v
  good_write : ∀ {t v a w}, good t v → (m v t a).2 = some w → good t (w.map Prod.fst)
  same_none : ∀ t, same t none none
  same_mono : ∀ {t t' v v'}, t ≤ t' → same t v v' → same t' v v'
  answer_eq : ∀ {t v v'} a, good t v → good t v' → same t v v' → (m v t a).1 = (m v' t a).1
  write_same : ∀ {t v v'} a, good t v → good t v' → same t v v' →
    SameWrite same t (m v t a).2 (m v' t a).2
  due_none : ∀ {t v a s due}, good t v → lasts v t a → (m v t a).2 = some (some (s, due)) →
    ∀ t', t ≤ t' → due ≤ t' → same t' (some s) none

namespace Forgettable

variable {m : Transition T α S R} {lasts : Option S → T → α → Prop} {good : T → Option S → Prop}
  {same : T → Option S → Option S → Prop}

/-- When a due value makes the transitions that no value makes, at every later call. -/
theorem of_eq (hnone : ∀ t, good t none) (hmono : ∀ {t t' v}, t ≤ t' → good t v → good t' v)
    (hwrite : ∀ {t v a w}, good t v → (m v t a).2 = some w → good t (w.map Prod.fst))
    (hdue : ∀ {t v a s due}, good t v → lasts v t a → (m v t a).2 = some (some (s, due)) →
      ∀ t', t ≤ t' → due ≤ t' → ∀ b, m (some s) t' b = m none t' b) :
    Forgettable m lasts good fun t v v' => ∀ t', t ≤ t' → ∀ b, m v t' b = m v' t' b where
  good_none := hnone
  good_mono := hmono
  good_write := hwrite
  same_none _ _ _ _ := rfl
  same_mono hle h t' hle' := h t' (hle.trans hle')
  answer_eq a _ _ h := by rw [h _ le_rfl a]
  write_same {t v v'} a _ _ h := by
    rw [h _ le_rfl a]
    cases (m v' t a).2 with
    | none => trivial
    | some w => exact ⟨fun _ _ _ => rfl, rfl⟩
  due_none hgood hlasts hw t' hle hdue' t'' hle' b :=
    hdue hgood hlasts hw t'' (hle.trans hle') (hdue'.trans hle') b

/-- A map that has kept what it was written against one that may have forgotten: the cells of one
key at `now`. -/
structure Matches (good : T → Option S → Prop) (same : T → Option S → Option S → Prop) (now : T)
    (kept dropped : Option (S × T)) : Prop where
  good_kept : good now (kept.map Prod.fst)
  good_dropped : good now (dropped.map Prod.fst)
  related : same now (kept.map Prod.fst) (dropped.map Prod.fst)
  /-- What has not been dropped is due when the kept value is. -/
  due : ∀ v ∈ dropped, ∃ u ∈ kept, u.2 = v.2
  /-- Once due, the kept value is as good as none. -/
  due_none : ∀ v ∈ kept, ∀ t, now ≤ t → v.2 ≤ t → same t (some v.1) none

theorem Matches.mono (h : Forgettable m lasts good same) {now now' : T} (hle : now ≤ now')
    {kept dropped : Option (S × T)} (hm : Matches good same now kept dropped) :
    Matches good same now' kept dropped where
  good_kept := h.good_mono hle hm.good_kept
  good_dropped := h.good_mono hle hm.good_dropped
  related := h.same_mono hle hm.related
  due := hm.due
  due_none v hv t ht := hm.due_none v hv t (hle.trans ht)

theorem matches_empty (h : Forgettable m lasts good same) (now : T) :
    Matches good same now (none : Option (S × T)) none where
  good_kept := h.good_none now
  good_dropped := h.good_none now
  related := h.same_none now
  due := by simp
  due_none := by simp

section Run

variable [DecidableEq K] {kept dropped : Cells K T S} {key : K} {now : T}

/-- A call answers the same on both sides, and leaves matching cells. -/
theorem matches_call (h : Forgettable m lasts good same)
    (hm : ∀ k, Matches good same now (kept k) (dropped k)) (a : α)
    (hlasts : lasts ((kept key).map Prod.fst) now a) :
    (call m kept key now a).2 = (call m dropped key now a).2 ∧
      ∀ k, Matches good same now ((call m kept key now a).1 k)
        ((call m dropped key now a).1 k) := by
  obtain ⟨hgood, hgood', hsame, -, -⟩ := hm key
  have hwrite := h.write_same a hgood hgood' hsame
  refine ⟨h.answer_eq a hgood hgood' hsame, fun k => ?_⟩
  unfold call
  dsimp only
  cases hw : (m ((kept key).map Prod.fst) now a).2 with
  | none =>
    cases hw' : (m ((dropped key).map Prod.fst) now a).2 with
    | none => exact hm k
    | some w' => rw [hw, hw'] at hwrite; exact hwrite.elim
  | some w =>
    cases hw' : (m ((dropped key).map Prod.fst) now a).2 with
    | none => rw [hw, hw'] at hwrite; exact hwrite.elim
    | some w' =>
      rw [hw, hw'] at hwrite
      obtain ⟨hsame', hdue⟩ := hwrite
      dsimp only
      by_cases hk : k = key
      · subst hk
        rw [Function.update_self, Function.update_self]
        refine ⟨h.good_write hgood hw, h.good_write hgood' hw', hsame', ?_, ?_⟩
        · rintro ⟨s', due'⟩ hv
          obtain rfl : w' = some (s', due') := hv
          obtain ⟨⟨s, due⟩, hs, heq⟩ := Option.map_eq_some_iff.mp hdue
          exact ⟨(s, due), hs, heq⟩
        · rintro ⟨s, due⟩ hv t ht hdue'
          obtain rfl : w = some (s, due) := hv
          exact h.due_none hgood hlasts hw t ht hdue'
      · rw [Function.update_of_ne hk, Function.update_of_ne hk]
        exact hm k

/-- Dropping a due value on one side only leaves matching cells. -/
theorem matches_forget (h : Forgettable m lasts good same)
    (hm : ∀ k, Matches good same now (kept k) (dropped k)) (k : K) :
    Matches good same now (kept k) (forget dropped key now k) := by
  unfold forget
  split
  · rename_i hany
    by_cases hk : k = key
    · subst hk
      rw [Function.update_self]
      obtain ⟨v, hv, hle⟩ := (Option.any_eq_true _ _).mp hany
      obtain ⟨u, hu, heq⟩ := (hm k).due v hv
      refine ⟨(hm k).good_kept, h.good_none now, ?_, by simp, (hm k).due_none⟩
      have hnone := (hm k).due_none u hu now le_rfl (heq ▸ of_decide_eq_true hle)
      rwa [Option.mem_def.mp hu]
    · rw [Function.update_of_ne hk]
      exact hm k
  · exact hm k

theorem answers_eq_of_matches (h : Forgettable m lasts good same) :
    ∀ (ops : List (Op K T α)) {kept dropped : Cells K T S} {now : T},
      (∀ k, Matches good same now (kept k) (dropped k)) → (∀ op ∈ ops, now ≤ op.time) →
      ops.Pairwise (fun op op' => op.time ≤ op'.time) →
      AllLast m lasts kept (ops.filter Op.isCall) →
      answers m dropped ops = answers m kept (ops.filter Op.isCall)
  | [], _, _, _, _, _, _, _ => rfl
  | op :: ops, kept, dropped, now, hm, hle, hsorted, hlast => by
    obtain ⟨hhead, htail⟩ := List.pairwise_cons.mp hsorted
    have hm' := fun k => (hm k).mono h (hle op List.mem_cons_self)
    cases op with
    | call key t a =>
      have hcall : (call m kept key t a).2 = (call m dropped key t a).2 ∧ ∀ k,
          Matches good same t ((call m kept key t a).1 k) ((call m dropped key t a).1 k) :=
        h.matches_call hm' a hlast.1
      obtain ⟨hans, hnext⟩ := hcall
      show (call m dropped key t a).2 :: _ = (call m kept key t a).2 :: _
      exact congrArg₂ _ hans.symm (h.answers_eq_of_matches ops hnext hhead htail hlast.2)
    | forget key t =>
      rw [List.filter_cons_of_neg (by simp [Op.isCall])] at hlast ⊢
      exact h.answers_eq_of_matches ops (fun k => h.matches_forget hm' k) hhead htail hlast

/-- **Forgetting due values changes no answer.** -/
theorem answers_eq (h : Forgettable m lasts good same) {ops : List (Op K T α)}
    (hsorted : ops.Pairwise fun op op' => op.time ≤ op'.time)
    (hlast : AllLast m lasts Cells.empty (ops.filter Op.isCall)) :
    answers m Cells.empty ops = answers m Cells.empty (ops.filter Op.isCall) := by
  cases ops with
  | nil => rfl
  | cons op ops =>
    have hempty : ∀ k : K, Matches good same op.time (none : Option (S × T)) none :=
      fun _ => h.matches_empty _
    refine h.answers_eq_of_matches (op :: ops) hempty ?_ hsorted hlast
    rintro op' hop'
    rcases List.mem_cons.mp hop' with rfl | hmem
    · exact le_rfl
    · exact (List.pairwise_cons.mp hsorted).1 op' hmem

end Run

end Forgettable

end Expiry
