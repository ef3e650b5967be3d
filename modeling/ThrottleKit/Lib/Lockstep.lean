import Mathlib.Algebra.Order.Group.Defs
import Mathlib.Data.List.Basic
import Mathlib.Data.List.Forall2
import Mathlib.Order.Basic
import Mathlib.Tactic.Common

/-!
# Two systems in lockstep

A service answers each request and may change its state. Two services that are given the same
requests are in lockstep when a relation between their states is kept by every request and makes
their answers agree. What agreement means is a relation between answers, so that services may be
compared on a part of what they say.

A request may be subject to a condition on the state it arrives in, as a hypothesis on the run and
not on the service.

## Main definitions

* `Service`, `answers` — services, and their answers to a list of requests
* `after` — the state a list of requests leaves
* `AllMet` — a condition met by every request of a list, in the state it arrives in
* `tally` — the sum of what the requests of a list amount to

## Main results

* `after_of_allMet` — what every request keeps, a list of requests keeps
* `forall₂_answers` — the lockstep rule
* `map_answers_eq` — the lockstep rule for what the answers say
* `forall₂_answers_of_start` — the lockstep rule for requests in the order of their times
* `forall_answers_of_start` — the same for the answers of one system
* `tally_le` — the potential rule: what every request takes out of a potential, all of them do
-/

namespace Lockstep

variable {σ τ α β γ δ T : Type*}

/-- From a state and a request, the next state and the answer. -/
abbrev Service (σ α β : Type*) := σ → α → σ × β

/-- The answers to a list of requests. -/
def answers (m : Service σ α β) : σ → List α → List β
  | _, [] => []
  | s, a :: as => (m s a).2 :: answers m (m s a).1 as

/-- The state a list of requests leaves. -/
def after (m : Service σ α β) (s : σ) (as : List α) : σ := as.foldl (fun s a => (m s a).1) s

/-- Every request of the list meets `ok` in the state it arrives in. -/
def AllMet (m : Service σ α β) (ok : σ → α → Prop) : σ → List α → Prop
  | _, [] => True
  | s, a :: as => ok s a ∧ AllMet m ok (m s a).1 as

instance AllMet.decidable (m : Service σ α β) (ok : σ → α → Prop) [∀ s a, Decidable (ok s a)] :
    ∀ s as, Decidable (AllMet m ok s as)
  | _, [] => isTrue trivial
  | s, a :: as =>
    have := AllMet.decidable m ok (m s a).1 as
    inferInstanceAs (Decidable (ok s a ∧ AllMet m ok (m s a).1 as))

variable {m : Service σ α β} {m' : Service τ α γ} {ok : σ → α → Prop} {R : σ → τ → Prop}
  {Q : β → γ → Prop}

/-! ### The state after a list of requests -/

@[simp] theorem after_nil (s : σ) : after m s [] = s := rfl

@[simp] theorem after_cons (s : σ) (a : α) (as : List α) :
    after m s (a :: as) = after m (m s a).1 as := rfl

@[simp] theorem after_append (s : σ) (as bs : List α) :
    after m s (as ++ bs) = after m (after m s as) bs := List.foldl_append

/-- Requests that change nothing. -/
theorem after_eq_self {s : σ} {as : List α} (h : ∀ a ∈ as, (m s a).1 = s) : after m s as = s := by
  induction as with
  | nil => rfl
  | cons a as ih =>
    rw [after_cons, h a List.mem_cons_self]
    exact ih fun b hb => h b (List.mem_cons_of_mem _ hb)

/-- What every request keeps, requests keep. -/
theorem after_invariant {I : σ → Prop} (hstep : ∀ s a, I s → I (m s a).1) :
    ∀ (as : List α) {s : σ}, I s → I (after m s as)
  | [], _, hI => hI
  | _ :: as, _, hI => after_invariant hstep as (hstep _ _ hI)

/-- What every request keeps where it meets `ok`, a list of requests keeps. -/
theorem after_of_allMet {I : σ → Prop} (hstep : ∀ s a, I s → ok s a → I (m s a).1) :
    ∀ (as : List α) {s : σ}, I s → AllMet m ok s as → I (after m s as)
  | [], _, hI, _ => hI
  | _ :: as, _, hI, hok => after_of_allMet hstep as (hstep _ _ hI hok.1) hok.2

/-- What every request keeps at its own time, requests in the order of their times keep up to any
later one. -/
theorem after_of_sorted [Preorder T] (time : α → T) {I : T → σ → Prop}
    (hmono : ∀ {t t' s}, t ≤ t' → I t s → I t' s)
    (hstep : ∀ s a, I (time a) s → I (time a) (m s a).1) :
    ∀ (as : List α) {t now : T} {s : σ}, I t s → t ≤ now → (∀ a ∈ as, t ≤ time a ∧ time a ≤ now) →
      as.Pairwise (fun a a' => time a ≤ time a') → I now (after m s as)
  | [], _, _, _, hI, hle, _, _ => hmono hle hI
  | a :: as, t, now, s, hI, _, hbetween, hsorted => by
    obtain ⟨hhead, htail⟩ := List.pairwise_cons.mp hsorted
    obtain ⟨hle, hle'⟩ := hbetween a List.mem_cons_self
    have hnext : I (time a) (m s a).1 := hstep s a (hmono hle hI)
    rw [after_cons]
    refine after_of_sorted time (I := I) hmono hstep as hnext hle' (fun a' ha' => ?_) htail
    exact ⟨hhead a' ha', (hbetween a' (List.mem_cons_of_mem _ ha')).2⟩

/-- Services that change the state alike where a request meets `ok` leave the same state. -/
theorem after_congr {n : Service σ α γ} (h : ∀ s a, ok s a → (m s a).1 = (n s a).1) :
    ∀ (as : List α) {s : σ}, AllMet m ok s as → after m s as = after n s as
  | [], _, _ => rfl
  | a :: as, s, hok => by
    rw [after_cons, after_cons, ← h s a hok.1]
    exact after_congr h as hok.2

/-- What their requests meet is the same. -/
theorem allMet_congr {n : Service σ α γ} {p p' : σ → α → Prop}
    (h : ∀ s a, ok s a → (m s a).1 = (n s a).1) (hp : ∀ s a, ok s a → (p s a ↔ p' s a)) :
    ∀ (as : List α) {s : σ}, AllMet m ok s as → (AllMet m p s as ↔ AllMet n p' s as)
  | [], _, _ => Iff.rfl
  | a :: as, s, hok => by
    rw [AllMet, AllMet, ← h s a hok.1]
    exact and_congr (hp s a hok.1) (allMet_congr h hp as hok.2)

theorem allMet_append (s : σ) (as bs : List α) :
    AllMet m ok s (as ++ bs) ↔ AllMet m ok s as ∧ AllMet m ok (after m s as) bs := by
  induction as generalizing s with
  | nil => exact ⟨fun h => ⟨trivial, h⟩, And.right⟩
  | cons a as ih => exact (and_congr_right fun _ => ih _).trans and_assoc.symm

/-! ### Answers -/

theorem length_answers (s : σ) (as : List α) : (answers m s as).length = as.length := by
  induction as generalizing s with
  | nil => rfl
  | cons a as ih => exact congrArg (· + 1) (ih _)

theorem answers_append (s : σ) (as bs : List α) :
    answers m s (as ++ bs) = answers m s as ++ answers m (after m s as) bs := by
  induction as generalizing s with
  | nil => rfl
  | cons a as ih => exact congrArg ((m s a).2 :: ·) (ih _)

/-- Requests that carry more than the service reads. -/
theorem answers_map {ε : Type*} (f : ε → α) (s : σ) (es : List ε) :
    answers (fun s e => m s (f e)) s es = answers m s (es.map f) := by
  induction es generalizing s with
  | nil => rfl
  | cons e es ih => exact congrArg ((m s (f e)).2 :: ·) (ih _)

/-- **The lockstep rule.** -/
theorem forall₂_answers
    (hstep : ∀ s t a, R s t → ok s a → Q (m s a).2 (m' t a).2 ∧ R (m s a).1 (m' t a).1) :
    ∀ (as : List α) {s : σ} {t : τ}, R s t → AllMet m ok s as →
      List.Forall₂ Q (answers m s as) (answers m' t as)
  | [], _, _, _, _ => .nil
  | a :: as, s, t, hR, hok => by
    obtain ⟨hans, hnext⟩ := hstep s t a hR hok.1
    exact .cons hans (forall₂_answers hstep as hnext hok.2)

/-- The lockstep rule for what the answers say. -/
theorem map_answers_eq {f : β → δ} {g : γ → δ}
    (hstep : ∀ s t a, R s t → ok s a → f (m s a).2 = g (m' t a).2 ∧ R (m s a).1 (m' t a).1)
    {as : List α} {s : σ} {t : τ} (hR : R s t) (hok : AllMet m ok s as) :
    (answers m s as).map f = (answers m' t as).map g := by
  rw [← List.forall₂_eq_eq_eq, List.forall₂_map_left_iff, List.forall₂_map_right_iff]
  exact forall₂_answers hstep as hR hok

/-- A condition that follows from an invariant is met by every request, in the order of their
times. -/
theorem allMet_of_sorted [Preorder T] (time : α → T) {I : T → σ → Prop} {p : α → Prop}
    (hmono : ∀ {now now' s}, now ≤ now' → I now s → I now' s)
    (hstep : ∀ s a, I (time a) s → p a → ok s a ∧ I (time a) (m s a).1) :
    ∀ (as : List α) (now : T) {s : σ}, I now s → (∀ a ∈ as, now ≤ time a ∧ p a) →
      as.Pairwise (fun a a' => time a ≤ time a') → AllMet m ok s as
  | [], _, _, _, _, _ => trivial
  | a :: as, now, s, hI, has, hsorted => by
    obtain ⟨hhead, htail⟩ := List.pairwise_cons.mp hsorted
    obtain ⟨hle, hp⟩ := has a List.mem_cons_self
    obtain ⟨hok, hnext⟩ := hstep s a (hmono hle hI) hp
    refine ⟨hok, allMet_of_sorted time (I := I) hmono hstep as _ hnext (fun a' ha' => ?_) htail⟩
    exact ⟨hhead a' ha', (has a' (List.mem_cons_of_mem _ ha')).2⟩

/-- **The lockstep rule for requests in the order of their times.** The relation may speak of the
time up to which requests have been answered. -/
theorem forall₂_answers_of_sorted [Preorder T] {time : α → T} {R : T → σ → τ → Prop}
    (hmono : ∀ {now now' s t}, now ≤ now' → R now s t → R now' s t)
    (hstep : ∀ s t a, R (time a) s t → ok s a →
      Q (m s a).2 (m' t a).2 ∧ R (time a) (m s a).1 (m' t a).1) :
    ∀ (as : List α) {now : T} {s : σ} {t : τ}, R now s t → (∀ a ∈ as, now ≤ time a) →
      as.Pairwise (fun a a' => time a ≤ time a') → AllMet m ok s as →
      List.Forall₂ Q (answers m s as) (answers m' t as)
  | [], _, _, _, _, _, _, _ => .nil
  | a :: as, now, s, t, hR, hle, hsorted, hok => by
    obtain ⟨hhead, htail⟩ := List.pairwise_cons.mp hsorted
    obtain ⟨hans, hnext⟩ := hstep s t a (hmono (hle a List.mem_cons_self) hR) hok.1
    exact .cons hans (forall₂_answers_of_sorted (R := R) hmono hstep as hnext hhead htail hok.2)

/-- The same for a relation that holds at the start whatever the time. -/
theorem forall₂_answers_of_start [Preorder T] {time : α → T} {R : T → σ → τ → Prop}
    (hmono : ∀ {now now' s t}, now ≤ now' → R now s t → R now' s t)
    (hstep : ∀ s t a, R (time a) s t → ok s a →
      Q (m s a).2 (m' t a).2 ∧ R (time a) (m s a).1 (m' t a).1)
    {as : List α} {s : σ} {t : τ} (hR : ∀ now, R now s t)
    (hsorted : as.Pairwise fun a a' => time a ≤ time a') (hok : AllMet m ok s as) :
    List.Forall₂ Q (answers m s as) (answers m' t as) := by
  cases as with
  | nil => exact .nil
  | cons a as =>
    refine forall₂_answers_of_sorted (R := R) hmono hstep _ (hR (time a)) ?_ hsorted hok
    intro a' ha'
    rcases List.mem_cons.mp ha' with rfl | hmem
    · exact le_rfl
    · exact (List.pairwise_cons.mp hsorted).1 a' hmem

/-- The rule for the answers of one system, to requests in the order of their times. -/
theorem forall_answers_of_start [Preorder T] {time : α → T} {R : T → σ → Prop} {P : β → Prop}
    (hmono : ∀ {now now' s}, now ≤ now' → R now s → R now' s)
    (hstep : ∀ s a, R (time a) s → ok s a → P (m s a).2 ∧ R (time a) (m s a).1)
    {as : List α} {s : σ} (hR : ∀ now, R now s)
    (hsorted : as.Pairwise fun a a' => time a ≤ time a') (hok : AllMet m ok s as) :
    ∀ b ∈ answers m s as, P b := by
  have hall : List.Forall₂ (fun b (_ : β) => P b) (answers m s as) (answers m s as) :=
    forall₂_answers_of_start (R := fun now s t => R now s ∧ t = s)
      (fun hle h => ⟨hmono hle h.1, h.2⟩)
      (fun s t a h hok => by
        obtain ⟨h, rfl⟩ := h
        obtain ⟨hans, hnext⟩ := hstep _ a h hok
        exact ⟨hans, hnext, rfl⟩)
      (fun now => ⟨hR now, rfl⟩) hsorted hok
  intro b hb
  have hsame := List.forall₂_same.mp hall
  exact hsame b hb

/-- **The rule for agreement and nothing less.** Where the states stay related whatever is answered,
all answers agree just where every request meets the condition on which its own answer does. Either
system may have a condition of its own on the requests. -/
theorem answers_eq_map_iff {ok' : τ → α → Prop} {f : γ → β} {good : σ → α → Prop}
    (hstep : ∀ s t a, R s t → ok s a → ok' t a →
      ((m s a).2 = f (m' t a).2 ↔ good s a) ∧ R (m s a).1 (m' t a).1) :
    ∀ (as : List α) {s : σ} {t : τ}, R s t → AllMet m ok s as → AllMet m' ok' t as →
      (answers m s as = (answers m' t as).map f ↔ AllMet m good s as)
  | [], _, _, _, _, _ => iff_of_true rfl trivial
  | a :: as, s, t, hR, hok, hok' => by
    obtain ⟨hans, hnext⟩ := hstep s t a hR hok.1 hok'.1
    exact List.cons_eq_cons.trans
      (and_congr hans (answers_eq_map_iff hstep as hnext hok.2 hok'.2))

/-- The same for requests in the order of their times. Behind a request whose answers differ the
states may be anything. -/
theorem answers_eq_map_iff_of_sorted [Preorder T] {time : α → T}
    {R : T → σ → τ → Prop} {ok' : τ → α → Prop} {f : γ → β} {good : σ → α → Prop}
    (hmono : ∀ {now now' s t}, now ≤ now' → R now s t → R now' s t)
    (hstep : ∀ s t a, R (time a) s t → ok s a → ok' t a →
      ((m s a).2 = f (m' t a).2 ↔ good s a) ∧ (good s a → R (time a) (m s a).1 (m' t a).1)) :
    ∀ (as : List α) {now : T} {s : σ} {t : τ}, R now s t → (∀ a ∈ as, now ≤ time a) →
      as.Pairwise (fun a a' => time a ≤ time a') → AllMet m ok s as → AllMet m' ok' t as →
      (answers m s as = (answers m' t as).map f ↔ AllMet m good s as)
  | [], _, _, _, _, _, _, _, _ => iff_of_true rfl trivial
  | a :: as, now, s, t, hR, hle, hsorted, hok, hok' => by
    obtain ⟨hhead, htail⟩ := List.pairwise_cons.mp hsorted
    obtain ⟨hans, hnext⟩ := hstep s t a (hmono (hle a List.mem_cons_self) hR) hok.1 hok'.1
    refine (List.cons_eq_cons.trans (and_congr_left fun _ => hans)).trans
      (and_congr_right fun hgood => ?_)
    exact answers_eq_map_iff_of_sorted (R := R) hmono hstep as (hnext hgood) hhead htail hok.2
      hok'.2

/-- The same for a relation that holds at the start whatever the time. -/
theorem answers_eq_map_iff_of_start [Preorder T] {time : α → T}
    {R : T → σ → τ → Prop} {ok' : τ → α → Prop} {f : γ → β} {good : σ → α → Prop}
    (hmono : ∀ {now now' s t}, now ≤ now' → R now s t → R now' s t)
    (hstep : ∀ s t a, R (time a) s t → ok s a → ok' t a →
      ((m s a).2 = f (m' t a).2 ↔ good s a) ∧ (good s a → R (time a) (m s a).1 (m' t a).1))
    {as : List α} {s : σ} {t : τ} (hR : ∀ now, R now s t)
    (hsorted : as.Pairwise fun a a' => time a ≤ time a') (hok : AllMet m ok s as)
    (hok' : AllMet m' ok' t as) :
    answers m s as = (answers m' t as).map f ↔ AllMet m good s as := by
  cases as with
  | nil => exact iff_of_true rfl trivial
  | cons a as =>
    refine answers_eq_map_iff_of_sorted (R := R) hmono hstep _ (hR (time a)) ?_ hsorted hok hok'
    intro a' ha'
    rcases List.mem_cons.mp ha' with rfl | hmem
    · exact le_rfl
    · exact (List.pairwise_cons.mp hsorted).1 a' hmem

/-- What two systems in lockstep come to be in, after requests in the order of their times. -/
theorem related_of_sorted [Preorder T] {time : α → T} {R : T → σ → τ → Prop}
    (hmono : ∀ {now now' s t}, now ≤ now' → R now s t → R now' s t)
    (hstep : ∀ s t a, R (time a) s t → ok s a → R (time a) (m s a).1 (m' t a).1) :
    ∀ (as : List α) {now : T} {s : σ} {t : τ}, R now s t → (∀ a ∈ as, now ≤ time a) →
      as.Pairwise (fun a a' => time a ≤ time a') → AllMet m ok s as →
      ∃ now', R now' (after m s as) (after m' t as)
  | [], now, _, _, hR, _, _, _ => ⟨now, hR⟩
  | a :: as, now, s, t, hR, hle, hsorted, hok => by
    obtain ⟨hhead, htail⟩ := List.pairwise_cons.mp hsorted
    have hnext := hstep s t a (hmono (hle a List.mem_cons_self) hR) hok.1
    exact related_of_sorted (R := R) hmono hstep as hnext hhead htail hok.2

/-- The same for a relation that holds at the start whatever the time. -/
theorem related_of_start [Preorder T] [Inhabited T] {time : α → T} {R : T → σ → τ → Prop}
    (hmono : ∀ {now now' s t}, now ≤ now' → R now s t → R now' s t)
    (hstep : ∀ s t a, R (time a) s t → ok s a → R (time a) (m s a).1 (m' t a).1)
    {as : List α} {s : σ} {t : τ} (hR : ∀ now, R now s t)
    (hsorted : as.Pairwise fun a a' => time a ≤ time a') (hok : AllMet m ok s as) :
    ∃ now, R now (after m s as) (after m' t as) := by
  cases as with
  | nil => exact ⟨default, hR default⟩
  | cons a as =>
    refine related_of_sorted (R := R) hmono hstep _ (hR (time a)) ?_ hsorted hok
    intro a' ha'
    rcases List.mem_cons.mp ha' with rfl | hmem
    · exact le_rfl
    · exact (List.pairwise_cons.mp hsorted).1 a' hmem

/-- A condition on the request alone is met when every request of the list meets it. -/
theorem allMet_of_forall {p : α → Prop} : ∀ (as : List α) {s : σ}, (∀ a ∈ as, p a) →
    AllMet m (fun _ a => p a) s as
  | [], _, _ => trivial
  | _ :: as, _, hp => ⟨hp _ List.mem_cons_self,
      allMet_of_forall as fun a ha => hp a (List.mem_cons_of_mem _ ha)⟩

/-- No condition is met by every list. -/
theorem allMet_true (s : σ) (as : List α) : AllMet m (fun _ _ => True) s as :=
  allMet_of_forall (p := fun _ => True) as fun _ _ => trivial

/-- A condition follows from another where an invariant says so. -/
theorem AllMet.imp_of_invariant {ok' : σ → α → Prop} {I : σ → Prop}
    (hstep : ∀ s a, I s → ok s a → ok' s a ∧ I (m s a).1) :
    ∀ {as : List α} {s : σ}, I s → AllMet m ok s as → AllMet m ok' s as
  | [], _, _, _ => trivial
  | _ :: _, _, hI, hok =>
    ⟨(hstep _ _ hI hok.1).1, imp_of_invariant hstep (hstep _ _ hI hok.1).2 hok.2⟩

/-- **Two conditions on every request.** Where they come to the same in every state that keeps an
invariant, and what meets them keeps it, all requests of a list meet the one or the other alike. -/
theorem allMet_iff {ok' : σ → α → Prop} {I : σ → Prop} {p : α → Prop}
    (hstep : ∀ s a, I s → p a → (ok s a ↔ ok' s a) ∧ (ok s a → I (m s a).1)) :
    ∀ (as : List α) {s : σ}, I s → (∀ a ∈ as, p a) → (AllMet m ok s as ↔ AllMet m ok' s as)
  | [], _, _, _ => Iff.rfl
  | a :: as, s, hI, hp => by
    obtain ⟨hiff, hnext⟩ := hstep s a hI (hp a List.mem_cons_self)
    refine (and_congr_right fun hok => ?_).trans (and_congr_left fun _ => hiff)
    exact allMet_iff hstep as (hnext hok) fun a' ha' => hp a' (List.mem_cons_of_mem _ ha')

/-- What holds of every request of the list may be added to the condition. -/
theorem AllMet.and_forall {p : α → Prop} : ∀ {as : List α} {s : σ}, AllMet m ok s as →
    (∀ a ∈ as, p a) → AllMet m (fun s a => p a ∧ ok s a) s as
  | [], _, _, _ => trivial
  | _ :: _, _, h, hp => ⟨⟨hp _ List.mem_cons_self, h.1⟩,
      and_forall h.2 fun a ha => hp a (List.mem_cons_of_mem _ ha)⟩

/-! ### Sums over a list of requests -/

section Tally

variable {M : Type*} [AddCommGroup M]

/-- The sum of what each request of the list amounts to, in the state it arrives in. -/
def tally (m : Service σ α β) (f : σ → α → M) : σ → List α → M
  | _, [] => 0
  | s, a :: as => f s a + tally m f (m s a).1 as

variable [PartialOrder M] [IsOrderedAddMonoid M]

/-- **The potential rule.** When every request takes what it amounts to out of a potential that
stays nonnegative, the requests together amount to the potential at the start at most. -/
theorem tally_le {f : σ → α → M} {I : σ → Prop} (pot : σ → M) (hpot : ∀ s, I s → 0 ≤ pot s)
    (hstep : ∀ s a, I s → ok s a → f s a + pot (m s a).1 ≤ pot s ∧ I (m s a).1) :
    ∀ (as : List α) {s : σ}, I s → AllMet m ok s as → tally m f s as ≤ pot s
  | [], s, hI, _ => hpot s hI
  | a :: as, s, hI, hok => by
    obtain ⟨hspent, hnext⟩ := hstep s a hI hok.1
    have ih : tally m f (m s a).1 as ≤ pot (m s a).1 := tally_le pot hpot hstep as hnext hok.2
    calc f s a + tally m f (m s a).1 as ≤ f s a + pot (m s a).1 := add_le_add_right ih _
      _ ≤ pot s := hspent

end Tally

end Lockstep
