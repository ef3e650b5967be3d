import Mathlib.Data.List.Perm.Basic
import ThrottleKit.Lib.Lockstep

/-!
# Sequential histories of a shared object

A shared object is specified by the service it would be if its calls came one at a time. A list of
calls with their answers is *legal* when that service, asked in the same order, gives the same
answers. Calls that overlapped in time may be put in any order, calls that did not keep theirs: a
history is linearizable when some legal order of its calls puts no call before one that was over
when it began.

## Main definitions

* `Legal` — the answers are those of the service asked in the order of the list
* `Call` — a request with its answer and the interval it took
* `Linearizes` — a legal order of a history that agrees with real time

## Main results

* `legal_concat` — one more call at the end
* `Linearizes.concat` — a call that takes effect last
* `Linearizes.insert` — a call that took effect before some that were over first
* `Linearizes.insert_idle` — the same for a call that changed nothing
-/

namespace Linearization

open Lockstep

variable {σ α β : Type*} {m : Service σ α β}

/-- The answers are those of `m`, asked from `s` in the order of the list. -/
def Legal (m : Service σ α β) (s : σ) (log : List (α × β)) : Prop :=
  answers m s (log.map Prod.fst) = log.map Prod.snd

instance [DecidableEq β] (m : Service σ α β) (s : σ) (log : List (α × β)) :
    Decidable (Legal m s log) := inferInstanceAs (Decidable (_ = _))

@[simp] theorem legal_nil (s : σ) : Legal m s [] := rfl

theorem legal_cons {s : σ} {a : α} {b : β} {log : List (α × β)} :
    Legal m s ((a, b) :: log) ↔ (m s a).2 = b ∧ Legal m (m s a).1 log := by
  simp [Legal, answers]

theorem legal_append {s : σ} {l l' : List (α × β)} :
    Legal m s (l ++ l') ↔ Legal m s l ∧ Legal m (after m s (l.map Prod.fst)) l' := by
  induction l generalizing s with
  | nil => simp
  | cons e l ih =>
    obtain ⟨a, b⟩ := e
    rw [List.cons_append, legal_cons, legal_cons, ih, and_assoc]
    rfl

/-- One more call at the end. -/
theorem legal_concat {s : σ} {l : List (α × β)} {a : α} {b : β} :
    Legal m s (l ++ [(a, b)]) ↔ Legal m s l ∧ (m (after m s (l.map Prod.fst)) a).2 = b := by
  simp [legal_append, legal_cons]

/-- A request with its answer, and when it was made and answered. -/
structure Call (α β : Type*) where
  request : α
  answer : β
  invoked : ℕ
  completed : ℕ

/-- What a list of calls says, without its times. -/
def said (calls : List (Call α β)) : List (α × β) := calls.map fun c => (c.request, c.answer)

@[simp] theorem said_nil : said ([] : List (Call α β)) = [] := rfl

@[simp] theorem said_append (l l' : List (Call α β)) : said (l ++ l') = said l ++ said l' :=
  List.map_append

@[simp] theorem said_cons (c : Call α β) (l : List (Call α β)) :
    said (c :: l) = (c.request, c.answer) :: said l := rfl

/-- Calls that change nothing, and are answered as they would be at once. -/
theorem legal_said_of_forall {s : σ} {calls : List (Call α β)}
    (h : ∀ c ∈ calls, m s c.request = (s, c.answer)) : Legal m s (said calls) := by
  induction calls with
  | nil => exact legal_nil s
  | cons c calls ih =>
    rw [said_cons, legal_cons, h c List.mem_cons_self]
    exact ⟨rfl, ih fun d hd => h d (List.mem_cons_of_mem _ hd)⟩

/-- The state the requests of a list of calls leave. -/
def stateAfter (m : Service σ α β) (s : σ) (calls : List (Call α β)) : σ :=
  after m s (calls.map Call.request)

@[simp] theorem map_fst_said (l : List (Call α β)) :
    (said l).map Prod.fst = l.map Call.request := by
  simp [said]

@[simp] theorem stateAfter_concat (m : Service σ α β) (s : σ) (calls : List (Call α β))
    (c : Call α β) :
    stateAfter m s (calls ++ [c]) = (m (stateAfter m s calls) c.request).1 := by
  simp [stateAfter]

/-- `order` puts the calls of `history` in an order that agrees with real time and in which `m`
gives the same answers, leaving `t`. -/
structure Linearizes (m : Service σ α β) (s : σ) (history order : List (Call α β)) (t : σ) :
    Prop where
  perm : order.Perm history
  /-- No call comes before one that was over when it was made. -/
  realTime : order.Pairwise fun c c' => ¬ c'.completed < c.invoked
  legal : Legal m s (said order)
  state : stateAfter m s order = t

theorem Linearizes.nil (s : σ) : Linearizes m s [] [] s := ⟨.refl _, .nil, legal_nil s, rfl⟩

/-- **A call that takes effect last.** -/
theorem Linearizes.concat {s t : σ} {history order : List (Call α β)} {c : Call α β}
    (h : Linearizes m s history order t) (hans : (m t c.request).2 = c.answer)
    (htime : ∀ d ∈ order, ¬ c.completed < d.invoked) :
    Linearizes m s (history ++ [c]) (order ++ [c]) (m t c.request).1 := by
  obtain ⟨hperm, hreal, hlegal, rfl⟩ := h
  refine ⟨hperm.append (.refl _), ?_, ?_, ?_⟩
  · rw [List.pairwise_append]
    exact ⟨hreal, List.pairwise_singleton _ _, fun d hd c' hc' => by
      obtain rfl := List.mem_singleton.mp hc'
      exact htime d hd⟩
  · rw [said_append, legal_append]
    refine ⟨hlegal, legal_cons.mpr ⟨?_, legal_nil _⟩⟩
    rw [map_fst_said]
    exact hans
  · simp [stateAfter]

theorem perm_insert (front back : List (Call α β)) (c : Call α β) :
    (front ++ c :: back).Perm ((front ++ back) ++ [c]) := by
  rw [List.append_assoc]
  exact (List.perm_append_singleton c back).symm.append_left front

/-- **A call that took effect before some that were over first.** These keep the state the call
leaves, and give in it the answers they gave. -/
theorem Linearizes.insert {s t u : σ} {history front back : List (Call α β)} {c : Call α β}
    (h : Linearizes m s history (front ++ back) t) (hfront : stateAfter m s front = u)
    (hans : (m u c.request).2 = c.answer)
    (hback : ∀ d ∈ back, (m (m u c.request).1 d.request) = ((m u c.request).1, d.answer))
    (htime : ∀ d ∈ front, ¬ c.completed < d.invoked)
    (htime' : ∀ d ∈ back, ¬ d.completed < c.invoked) :
    Linearizes m s (history ++ [c]) (front ++ c :: back) (m u c.request).1 := by
  have hkeep : ∀ a ∈ back.map Call.request, (m (m u c.request).1 a).1 = (m u c.request).1 := by
    intro a ha
    obtain ⟨d, hd, rfl⟩ := List.mem_map.mp ha
    rw [hback d hd]
  have hreal := List.pairwise_append.mp h.realTime
  refine ⟨?_, ?_, ?_, ?_⟩
  · exact (perm_insert front back c).trans (h.perm.append (.refl _))
  · rw [List.pairwise_append, List.pairwise_cons]
    refine ⟨hreal.1, ⟨htime', hreal.2.1⟩, fun d hd d' hd' => ?_⟩
    rcases List.mem_cons.mp hd' with rfl | hmem
    · exact htime d hd
    · exact hreal.2.2 d hd d' hmem
  · have hlegal := h.legal
    rw [said_append, legal_append] at hlegal ⊢
    refine ⟨hlegal.1, ?_⟩
    rw [map_fst_said, said_cons, legal_cons]
    rw [stateAfter] at hfront
    rw [hfront]
    exact ⟨hans, legal_said_of_forall hback⟩
  · rw [stateAfter] at hfront ⊢
    rw [List.map_append, after_append, hfront, List.map_cons, after_cons]
    exact after_eq_self hkeep

/-- **A call that changed nothing**, where it took effect. -/
theorem Linearizes.insert_idle {s t u : σ} {history front back : List (Call α β)} {c : Call α β}
    (h : Linearizes m s history (front ++ back) t) (hfront : stateAfter m s front = u)
    (hans : m u c.request = (u, c.answer)) (htime : ∀ d ∈ front, ¬ c.completed < d.invoked)
    (htime' : ∀ d ∈ back, ¬ d.completed < c.invoked) :
    Linearizes m s (history ++ [c]) (front ++ c :: back) t := by
  have hreal := List.pairwise_append.mp h.realTime
  rw [stateAfter] at hfront
  refine ⟨?_, ?_, ?_, ?_⟩
  · exact (perm_insert front back c).trans (h.perm.append (.refl _))
  · rw [List.pairwise_append, List.pairwise_cons]
    refine ⟨hreal.1, ⟨htime', hreal.2.1⟩, fun d hd d' hd' => ?_⟩
    rcases List.mem_cons.mp hd' with rfl | hmem
    · exact htime d hd
    · exact hreal.2.2 d hd d' hmem
  · have hlegal := h.legal
    rw [said_append, legal_append, map_fst_said, hfront] at hlegal ⊢
    rw [said_cons, legal_cons, hans]
    exact ⟨hlegal.1, rfl, hlegal.2⟩
  · have hstate := h.state
    rw [stateAfter, List.map_append, after_append, hfront] at hstate ⊢
    rw [List.map_cons, after_cons, hans]
    exact hstate

end Linearization
