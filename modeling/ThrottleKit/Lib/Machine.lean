import Mathlib.Data.List.Basic
import Mathlib.Logic.Function.Basic
import Mathlib.Tactic.Common

/-!
# Machines that take steps and emit outputs

A machine is a partial step function: from a state and an action it either is not enabled, or it
moves to one state and emits a list of outputs. Everything that is not determined by the state (a
clock reading, a reply from outside, which party moves next) is part of the action, so a run over
all action sequences is a run over all interleavings.

A run may be *restricted* by a side condition on the state and action of each step. The condition
is a hypothesis on the run and not part of the machine, so the same machine serves both a theorem
about every run and a theorem about the runs whose steps all meet the condition.

## Main definitions

* `Machine` — a partial step function with outputs
* `Machine.Run` — the restricted runs, with the outputs in order
* `Machine.exec`, `Machine.AllOk` — running a list of actions, and the condition along it
* `Machine.Chain` — a step taken apart into smaller moves
* `Machine.EachAt` — what holds of each output together with those before it
* `Parties`, `Parties.machine` — parties around a shared resource, one party moving at a time

## Main results

* `Machine.Run.invariant` — what holds at the start and is preserved by a step holds after a run
* `Machine.run_of_exec` — an executed list of actions is a run
* `Machine.Chain.invariant` — what every move preserves, a sequence of moves preserves
* `Parties.run_party` — an invariant of one party, whatever the resource and the others do
* `Parties.run_shared` — an invariant of the resource and of all outputs
* `Parties.run_each` — an invariant of each party together with the resource
-/

/-- A step function with outputs; `none` where the action is not enabled. -/
def Machine (σ act out : Type*) := σ → act → Option (σ × List out)

namespace Machine

variable {σ act out : Type*}

/-- The runs of `m` from `s₀` in which every step meets `ok`, with their outputs in order. -/
inductive Run (m : Machine σ act out) (ok : σ → act → Prop) (s₀ : σ) : List out → σ → Prop
  | nil : Run m ok s₀ [] s₀
  | snoc {log s a s' new} (hrun : Run m ok s₀ log s) (hok : ok s a)
      (hstep : m s a = some (s', new)) : Run m ok s₀ (log ++ new) s'

/-- **The invariant rule.** -/
theorem Run.invariant {m : Machine σ act out} {ok : σ → act → Prop} {s₀ : σ}
    {I : σ → List out → Prop} (hinit : I s₀ [])
    (hstep : ∀ s log a s' new, I s log → ok s a → m s a = some (s', new) → I s' (log ++ new))
    {log : List out} {s : σ} (h : Run m ok s₀ log s) : I s log := by
  induction h with
  | nil => exact hinit
  | snoc _ hok hs ih => exact hstep _ _ _ _ _ ih hok hs

/-- A run under a condition is a run under any weaker one. -/
theorem Run.mono {m : Machine σ act out} {ok ok' : σ → act → Prop} {s₀ : σ}
    (himp : ∀ s a, ok s a → ok' s a) {log : List out} {s : σ} (h : Run m ok s₀ log s) :
    Run m ok' s₀ log s := by
  induction h with
  | nil => exact .nil
  | snoc _ hok hs ih => exact .snoc ih (himp _ _ hok) hs

/-- A run of a machine is one of any that takes the same steps under the condition. -/
theorem Run.congr {m m' : Machine σ act out} {ok : σ → act → Prop} {s₀ : σ}
    (heq : ∀ s a, ok s a → m s a = m' s a) {log : List out} {s : σ} (h : Run m ok s₀ log s) :
    Run m' ok s₀ log s := by
  induction h with
  | nil => exact .nil
  | snoc _ hok hs ih => exact .snoc ih hok ((heq _ _ hok).symm.trans hs)

/-- Run the actions in order; `none` as soon as one of them is not enabled. -/
def exec (m : Machine σ act out) : σ → List act → Option (σ × List out)
  | s, [] => some (s, [])
  | s, a :: as => (m s a).bind fun r => (exec m r.1 as).map fun q => (q.1, r.2 ++ q.2)

/-- Every step the actions take from `s` meets `ok`. -/
def AllOk (m : Machine σ act out) (ok : σ → act → Prop) : σ → List act → Prop
  | _, [] => True
  | s, a :: as => ok s a ∧ ∀ r ∈ m s a, AllOk m ok r.1 as

instance AllOk.decidable (m : Machine σ act out) (ok : σ → act → Prop)
    [∀ s a, Decidable (ok s a)] : ∀ s as, Decidable (AllOk m ok s as)
  | _, [] => isTrue trivial
  | s, a :: as =>
    match hs : m s a with
    | none => decidable_of_iff (ok s a) (by simp [AllOk, hs])
    | some r =>
      have := AllOk.decidable m ok r.1 as
      decidable_of_iff (ok s a ∧ AllOk m ok r.1 as) (by simp [AllOk, hs])

theorem run_append_of_exec {m : Machine σ act out} {ok : σ → act → Prop} {s₀ : σ} :
    ∀ (as : List act) {log : List out} {s : σ} {r : σ × List out}, Run m ok s₀ log s →
      exec m s as = some r → AllOk m ok s as → Run m ok s₀ (log ++ r.2) r.1 := by
  intro as
  induction as with
  | nil =>
    intro log s r hrun hexec _
    obtain rfl : (s, []) = r := by simpa [exec] using hexec
    simpa using hrun
  | cons a as ih =>
    intro log s r hrun hexec hok
    rw [exec, Option.bind_eq_some_iff] at hexec
    obtain ⟨⟨s', new⟩, hs, hrest⟩ := hexec
    obtain ⟨q, hq, rfl⟩ := Option.map_eq_some_iff.mp hrest
    have hnext := ih (hrun.snoc hok.1 hs) hq (hok.2 _ hs)
    simpa [List.append_assoc] using hnext

/-- **An executed list of actions is a run.** -/
theorem run_of_exec {m : Machine σ act out} {ok : σ → act → Prop} {s₀ : σ} {as : List act}
    {r : σ × List out} (h : exec m s₀ as = some r) (hok : AllOk m ok s₀ as) :
    Run m ok s₀ r.2 r.1 := by
  simpa using run_append_of_exec as .nil h hok

/-- An executed list of actions is a run, read off the executed state and outputs. -/
theorem run_of_isSome {m : Machine σ act out} {p : σ → act → Prop} {s : σ} {l : List act}
    (h : (exec m s l).isSome) (hp : AllOk m p s l) :
    Run m p s ((exec m s l).get h).2 ((exec m s l).get h).1 :=
  run_of_exec (Option.some_get h).symm hp

/-! ### Steps made of moves -/

/-- A sequence of `R`-moves from one state to another, with their outputs in order. -/
inductive Chain (R : σ → List out → σ → Prop) : σ → List out → σ → Prop
  | nil {s} : Chain R s [] s
  | cons {s new s' log s''} (hmove : R s new s') (hrest : Chain R s' log s'') :
      Chain R s (new ++ log) s''

theorem Chain.single {R : σ → List out → σ → Prop} {s s' : σ} {new : List out}
    (h : R s new s') : Chain R s new s' := by
  simpa using Chain.cons h .nil

theorem Chain.append {R : σ → List out → σ → Prop} {s s' s'' : σ} {l l' : List out}
    (h : Chain R s l s') (h' : Chain R s' l' s'') : Chain R s (l ++ l') s'' := by
  induction h with
  | nil => exact h'
  | cons hmove _ ih =>
    rw [List.append_assoc]
    exact .cons hmove (ih h')

/-- What every move preserves, a sequence of moves preserves. -/
theorem Chain.invariant {R : σ → List out → σ → Prop} {I : σ → List out → Prop}
    (hmove : ∀ s log s' new, I s log → R s new s' → I s' (log ++ new)) {s s' : σ}
    {log new : List out} (h : Chain R s new s') (hI : I s log) : I s' (log ++ new) := by
  induction h generalizing log with
  | nil => simpa using hI
  | cons hm _ ih =>
    rw [← List.append_assoc]
    exact ih (hmove _ _ _ _ hI hm)

/-! ### What holds of each output where it stands -/

/-- Each output satisfies `P` together with the outputs before it. -/
def EachAt (P : List out → out → Prop) (log : List out) : Prop :=
  ∀ pre e post, log = pre ++ e :: post → P pre e

theorem eachAt_nil (P : List out → out → Prop) : EachAt P [] := by
  intro pre e post h
  simp at h

theorem eachAt_concat {P : List out → out → Prop} {log : List out} {e : out} :
    EachAt P (log ++ [e]) ↔ EachAt P log ∧ P log e := by
  constructor
  · intro h
    refine ⟨fun pre e' post heq => h pre e' (post ++ [e]) ?_, h log e [] rfl⟩
    rw [heq, List.append_assoc, List.cons_append]
  · rintro ⟨hlog, he⟩ pre e' post heq
    rcases List.eq_nil_or_concat post with rfl | ⟨post', last, rfl⟩
    · obtain ⟨rfl, heq'⟩ := List.append_inj' heq rfl
      rw [← List.head_eq_of_cons_eq heq']
      exact he
    · have hsplit : log ++ [e] = (pre ++ e' :: post') ++ [last] := by
        rw [heq, List.append_assoc, List.cons_append, List.concat_eq_append]
      exact hlog pre e' post' (List.append_inj' hsplit rfl).1

theorem EachAt.append {P : List out → out → Prop} {log new : List out} (h : EachAt P log)
    (hnew : ∀ e ∈ new, ∀ pre, P pre e) : EachAt P (log ++ new) := by
  induction new generalizing log with
  | nil => simpa using h
  | cons e l ih =>
    rw [← List.singleton_append, ← List.append_assoc]
    refine ih (eachAt_concat.mpr ⟨h, hnew e List.mem_cons_self log⟩) fun e' he' => ?_
    exact hnew e' (List.mem_cons_of_mem _ he')

end Machine

/-- Parties `ι`, each in its own state, around one shared resource. -/
structure Parties (ι ρ σ : Type*) where
  /-- The resource every party may use. -/
  shared : ρ
  /-- Each party's own state. -/
  party : ι → σ

namespace Parties

variable {ι ρ σ act out : Type*} [DecidableEq ι]

/-- One party moves: it may change the resource and its own state, and nothing else. -/
def machine (step : ι → ρ → σ → act → Option (ρ × σ × List out)) :
    Machine (Parties ι ρ σ) (ι × act) (ι × out) := fun s a =>
  (step a.1 s.shared (s.party a.1) a.2).map fun r =>
    (⟨r.1, Function.update s.party a.1 r.2.1⟩, r.2.2.map fun e => (a.1, e))

/-- The outputs of party `i`. -/
def outputsOf (i : ι) (log : List (ι × out)) : List out :=
  log.filterMap fun e => if e.1 = i then some e.2 else none

@[simp] theorem outputsOf_nil (i : ι) : outputsOf i ([] : List (ι × out)) = [] := rfl

@[simp] theorem outputsOf_append (i : ι) (l l' : List (ι × out)) :
    outputsOf i (l ++ l') = outputsOf i l ++ outputsOf i l' := List.filterMap_append

@[simp] theorem outputsOf_map_self (i : ι) (l : List out) :
    outputsOf i (l.map fun e => (i, e)) = l := by
  induction l with
  | nil => rfl
  | cons e l ih => simp [outputsOf]

theorem outputsOf_map_of_ne {i j : ι} (h : j ≠ i) (l : List out) :
    outputsOf i (l.map fun e => (j, e)) = [] := by
  induction l with
  | nil => rfl
  | cons e l ih => simp [outputsOf, h]

/-- A step of the machine, taken apart. -/
theorem machine_eq_some {step : ι → ρ → σ → act → Option (ρ × σ × List out)}
    {s s' : Parties ι ρ σ} {i : ι} {a : act} {new : List (ι × out)}
    (h : machine step s (i, a) = some (s', new)) :
    ∃ c p l, step i s.shared (s.party i) a = some (c, p, l) ∧
      s' = ⟨c, Function.update s.party i p⟩ ∧ new = l.map fun e => (i, e) := by
  obtain ⟨⟨c, p, l⟩, hs, heq⟩ := Option.map_eq_some_iff.mp h
  obtain ⟨rfl, rfl⟩ := Prod.mk.inj heq
  exact ⟨c, p, l, hs, rfl, rfl⟩

/-- **The rule for one party.** What a party's own steps preserve, whatever the resource is in when
it takes them, holds of that party and its outputs throughout. -/
theorem run_party {step : ι → ρ → σ → act → Option (ρ × σ × List out)}
    {ok : Parties ι ρ σ → ι × act → Prop} {s₀ : Parties ι ρ σ} {I : ι → σ → List out → Prop}
    (hinit : ∀ i, I i (s₀.party i) [])
    (hstep : ∀ (s : Parties ι ρ σ) i a c p l log, I i (s.party i) log → ok s (i, a) →
      step i s.shared (s.party i) a = some (c, p, l) → I i p (log ++ l))
    {log : List (ι × out)} {s : Parties ι ρ σ} (h : (machine step).Run ok s₀ log s) (i : ι) :
    I i (s.party i) (outputsOf i log) := by
  refine Machine.Run.invariant (I := fun s log => ∀ i, I i (s.party i) (outputsOf i log))
    (fun i => hinit i) ?_ h i
  rintro s log ⟨j, a⟩ s' new hinv hok hs i
  obtain ⟨c, p, l, hpart, rfl, rfl⟩ := machine_eq_some hs
  rw [outputsOf_append]
  by_cases hji : j = i
  · subst hji
    simpa using hstep s j a c p l _ (hinv j) hok hpart
  · rw [outputsOf_map_of_ne hji, List.append_nil]
    simpa [Function.update_of_ne (Ne.symm hji)] using hinv i

/-- **The rule for the resource.** -/
theorem run_shared {step : ι → ρ → σ → act → Option (ρ × σ × List out)}
    {ok : Parties ι ρ σ → ι × act → Prop} {s₀ : Parties ι ρ σ} {I : ρ → List (ι × out) → Prop}
    (hinit : I s₀.shared [])
    (hstep : ∀ (s : Parties ι ρ σ) i a c p l log, I s.shared log → ok s (i, a) →
      step i s.shared (s.party i) a = some (c, p, l) → I c (log ++ l.map fun e => (i, e)))
    {log : List (ι × out)} {s : Parties ι ρ σ} (h : (machine step).Run ok s₀ log s) :
    I s.shared log := by
  refine Machine.Run.invariant (I := fun s log => I s.shared log) hinit ?_ h
  rintro s log ⟨j, a⟩ s' new hinv hok hs
  obtain ⟨c, p, l, hpart, rfl, rfl⟩ := machine_eq_some hs
  exact hstep s j a c p l log hinv hok hpart

/-- **The rule for each party against the resource.** `S` holds of the resource and `I` of each
party together with it, when a step keeps `S`, keeps `I` of the party that moves, and what it does
to the resource keeps `I` of every other party. -/
theorem run_each {step : ι → ρ → σ → act → Option (ρ × σ × List out)}
    {ok : Parties ι ρ σ → ι × act → Prop} {s₀ : Parties ι ρ σ} {S : ρ → Prop} {I : ι → ρ → σ → Prop}
    (hshared : S s₀.shared) (hinit : ∀ i, I i s₀.shared (s₀.party i))
    (hstep : ∀ (s : Parties ι ρ σ) i a c p l, S s.shared → (∀ j, I j s.shared (s.party j)) →
      ok s (i, a) → step i s.shared (s.party i) a = some (c, p, l) →
        S c ∧ I i c p ∧ ∀ j, j ≠ i → I j c (s.party j))
    {log : List (ι × out)} {s : Parties ι ρ σ} (h : (machine step).Run ok s₀ log s) :
    S s.shared ∧ ∀ i, I i s.shared (s.party i) := by
  refine Machine.Run.invariant (I := fun s _ => S s.shared ∧ ∀ i, I i s.shared (s.party i))
    ⟨hshared, hinit⟩ ?_ h
  rintro s log ⟨i, a⟩ s' new ⟨hS, hI⟩ hok hs
  obtain ⟨c, p, l, hpart, rfl, -⟩ := machine_eq_some hs
  obtain ⟨hS', hown, hother⟩ := hstep s i a c p l hS hI hok hpart
  refine ⟨hS', fun j => ?_⟩
  by_cases hij : j = i
  · subst hij
    simpa using hown
  · simpa [Function.update_of_ne hij] using hother j hij

end Parties
