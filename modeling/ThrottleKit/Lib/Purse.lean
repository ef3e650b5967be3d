import Mathlib.Algebra.BigOperators.Group.Finset.Basic
import Mathlib.Algebra.BigOperators.Group.Finset.Piecewise
import Mathlib.Algebra.Order.BigOperators.Group.Finset
import Mathlib.Algebra.Order.Group.Defs
import Mathlib.Tactic.Abel
import Mathlib.Tactic.Linarith
import ThrottleKit.Lib.Machine

/-!
# Purses: what is spent was paid in

A ledger is a list of postings, each paying an amount into an account or taking one out of it. A
system that hands out capacity *backs* its ledger when what it still holds for an account never
exceeds the account's balance. Backing is preserved step by step and splits over the parties of a
system, and a backed ledger spends no more than was paid in, over any set of accounts.

## Main definitions

* `Posting`, `credited`, `debited`, `balance` — postings, and the totals of a ledger
* `Backed` — the amounts still held are covered by the balances
* `partyLedger` — the ledger of a system of parties, each posting to accounts of its own

## Main results

* `Backed.append` — the step rule
* `debited_le_credited` — nonnegative balances bound spending over any set of accounts
* `balance_partyLedger` — a party's balance is that of its own outputs
* `debited_le_of_forall_party` — parties that are each solvent are solvent together
* `debited_le_add_of_forall_party` — finitely many parties that may each overdraw an account
-/

namespace Purse

variable {κ α ι out : Type*}

/-- One movement of a ledger. -/
inductive Posting (κ α : Type*)
  | credit (account : κ) (amount : α)
  | debit (account : κ) (amount : α)

/-- The account a posting moves. -/
def Posting.account : Posting κ α → κ
  | .credit k _ => k
  | .debit k _ => k

section Totals

variable [AddCommMonoid α]

/-- What a posting pays into the accounts satisfying `p`. -/
def creditOf (p : κ → Bool) : Posting κ α → α
  | .credit k a => if p k then a else 0
  | .debit _ _ => 0

/-- What a posting takes out of the accounts satisfying `p`. -/
def debitOf (p : κ → Bool) : Posting κ α → α
  | .credit _ _ => 0
  | .debit k a => if p k then a else 0

/-- Everything paid into the accounts satisfying `p`. -/
def credited (p : κ → Bool) (log : List (Posting κ α)) : α := (log.map (creditOf p)).sum

/-- Everything taken out of the accounts satisfying `p`. -/
def debited (p : κ → Bool) (log : List (Posting κ α)) : α := (log.map (debitOf p)).sum

@[simp] theorem credited_nil (p : κ → Bool) : credited p ([] : List (Posting κ α)) = 0 := rfl

@[simp] theorem debited_nil (p : κ → Bool) : debited p ([] : List (Posting κ α)) = 0 := rfl

@[simp] theorem credited_append (p : κ → Bool) (l l' : List (Posting κ α)) :
    credited p (l ++ l') = credited p l + credited p l' := by
  simp [credited]

@[simp] theorem debited_append (p : κ → Bool) (l l' : List (Posting κ α)) :
    debited p (l ++ l') = debited p l + debited p l' := by
  simp [debited]

@[simp] theorem credited_cons (p : κ → Bool) (e : Posting κ α) (l : List (Posting κ α)) :
    credited p (e :: l) = creditOf p e + credited p l := by
  simp [credited]

@[simp] theorem debited_cons (p : κ → Bool) (e : Posting κ α) (l : List (Posting κ α)) :
    debited p (e :: l) = debitOf p e + debited p l := by
  simp [debited]

/-- A total is the sum of the totals of the single accounts. -/
theorem sum_map_eq_sum_fiber [DecidableEq κ] (f : (κ → Bool) → Posting κ α → α)
    (hf : ∀ p e, f p e = if p e.account then f (fun k => k = e.account) e else 0)
    (p : κ → Bool) (s : Finset κ) : ∀ log : List (Posting κ α), (∀ e ∈ log, e.account ∈ s) →
    (log.map (f p)).sum = ∑ k ∈ s, if p k then (log.map (f fun k' => k' = k)).sum else 0 := by
  intro log
  induction log with
  | nil => simp
  | cons e l ih =>
    intro hmem
    have hs : e.account ∈ s := hmem e List.mem_cons_self
    have hrest := ih fun e' he' => hmem e' (List.mem_cons_of_mem _ he')
    have hone : f p e = ∑ k ∈ s, if p k then f (fun k' => k' = k) e else 0 := by
      rw [Finset.sum_eq_single e.account ?_ fun h => absurd hs h]
      · exact hf p e
      · intro k _ hk
        rw [hf (fun k' => k' = k) e]
        simp [Ne.symm hk]
    rw [List.map_cons, List.sum_cons, hone, hrest, ← Finset.sum_add_distrib]
    refine Finset.sum_congr rfl fun k _ => ?_
    by_cases hk : p k <;> simp [hk]

theorem credited_eq_sum [DecidableEq κ] (p : κ → Bool) (s : Finset κ) (log : List (Posting κ α))
    (h : ∀ e ∈ log, e.account ∈ s) :
    credited p log = ∑ k ∈ s, if p k then credited (fun k' => k' = k) log else 0 := by
  refine sum_map_eq_sum_fiber creditOf (fun p e => ?_) p s log h
  cases e with
  | credit k a => simp [creditOf, Posting.account]
  | debit k a => exact (ite_self 0).symm

theorem debited_eq_sum [DecidableEq κ] (p : κ → Bool) (s : Finset κ) (log : List (Posting κ α))
    (h : ∀ e ∈ log, e.account ∈ s) :
    debited p log = ∑ k ∈ s, if p k then debited (fun k' => k' = k) log else 0 := by
  refine sum_map_eq_sum_fiber debitOf (fun p e => ?_) p s log h
  cases e with
  | credit k a => exact (ite_self 0).symm
  | debit k a => simp [debitOf, Posting.account]

end Totals

section Balance

variable [AddCommGroup α] [DecidableEq κ]

/-- What is left in account `k`. -/
def balance (log : List (Posting κ α)) (k : κ) : α :=
  credited (fun k' => k' = k) log - debited (fun k' => k' = k) log

@[simp] theorem balance_nil (k : κ) : balance ([] : List (Posting κ α)) k = 0 := by simp [balance]

@[simp] theorem balance_append (l l' : List (Posting κ α)) (k : κ) :
    balance (l ++ l') k = balance l k + balance l' k := by
  simp only [balance, credited_append, debited_append]
  abel

theorem balance_cons (e : Posting κ α) (l : List (Posting κ α)) (k : κ) :
    balance (e :: l) k = balance [e] k + balance l k := by
  rw [← balance_append, List.singleton_append]

@[simp] theorem balance_credit (k k' : κ) (a : α) :
    balance [Posting.credit k a] k' = if k = k' then a else 0 := by
  simp [balance, creditOf, debitOf]

@[simp] theorem balance_debit (k k' : κ) (a : α) :
    balance [Posting.debit k a] k' = if k = k' then -a else 0 := by
  by_cases h : k = k' <;> simp [balance, creditOf, debitOf, h]

end Balance

section Order

variable [AddCommGroup α] [LinearOrder α] [IsOrderedAddMonoid α] [DecidableEq κ]

/-- What is still held for each account is covered by the account's balance. -/
def Backed (held : κ → α) (log : List (Posting κ α)) : Prop := ∀ k, held k ≤ balance log k

omit [IsOrderedAddMonoid α] in
theorem Backed.nil {held : κ → α} (h : ∀ k, held k ≤ 0) : Backed held [] := by
  intro k
  simpa using h k

/-- **The step rule.** A step may raise what is held only by what it pays in, and must lower it by
what it takes out. -/
theorem Backed.append {held held' : κ → α} {log new : List (Posting κ α)} (h : Backed held log)
    (hstep : ∀ k, held' k ≤ held k + balance new k) : Backed held' (log ++ new) := by
  intro k
  rw [balance_append]
  exact (hstep k).trans (add_le_add (h k) le_rfl)

/-- **Spending is bounded by what was paid in**, over any set of accounts. -/
theorem debited_le_credited {log : List (Posting κ α)} (h : ∀ k, 0 ≤ balance log k)
    (p : κ → Bool) : debited p log ≤ credited p log := by
  have hmem : ∀ e ∈ log, e.account ∈ (log.map Posting.account).toFinset := by
    intro e he
    exact List.mem_toFinset.mpr (List.mem_map_of_mem he)
  rw [debited_eq_sum p _ log hmem, credited_eq_sum p _ log hmem]
  refine Finset.sum_le_sum fun k _ => ?_
  by_cases hk : p k
  · simpa [hk] using sub_nonneg.mp (h k)
  · simp [hk]

end Order

/-! ### Parties with accounts of their own -/

/-- The ledger of a list of outputs. -/
def ledger (post : out → List (Posting κ α)) (log : List out) : List (Posting κ α) :=
  log.flatMap post

@[simp] theorem ledger_nil (post : out → List (Posting κ α)) : ledger post [] = [] := rfl

@[simp] theorem ledger_append (post : out → List (Posting κ α)) (l l' : List out) :
    ledger post (l ++ l') = ledger post l ++ ledger post l' := List.flatMap_append

@[simp] theorem ledger_cons (post : out → List (Posting κ α)) (e : out) (l : List out) :
    ledger post (e :: l) = post e ++ ledger post l := List.flatMap_cons

section Ledger

variable [AddCommMonoid α] {post : out → List (Posting κ α)} {p : κ → Bool} {f : out → α}

/-- What a ledger takes out of some accounts, output by output. -/
theorem debited_ledger_eq_sum (h : ∀ e, debited p (post e) = f e) (log : List out) :
    debited p (ledger post log) = (log.map f).sum := by
  induction log with
  | nil => rfl
  | cons e l ih => rw [ledger_cons, debited_append, ih, h, List.map_cons, List.sum_cons]

/-- What a ledger pays into some accounts, output by output. -/
theorem credited_ledger_eq_sum (h : ∀ e, credited p (post e) = f e) (log : List out) :
    credited p (ledger post log) = (log.map f).sum := by
  induction log with
  | nil => rfl
  | cons e l ih => rw [ledger_cons, credited_append, ih, h, List.map_cons, List.sum_cons]

end Ledger

/-- The same posting, to party `i`'s own account. -/
def Posting.own (i : ι) : Posting κ α → Posting (ι × κ) α
  | .credit k a => .credit (i, k) a
  | .debit k a => .debit (i, k) a

/-- The ledger of a system of parties, each posting to accounts of its own. -/
def partyLedger (post : out → List (Posting κ α)) (log : List (ι × out)) :
    List (Posting (ι × κ) α) :=
  ledger (fun e => (post e.2).map (Posting.own e.1)) log

section Forget

variable [AddCommMonoid α]

/-- A total over accounts of the same name does not ask whose they are. -/
theorem credited_partyLedger (post : out → List (Posting κ α)) (p : κ → Bool)
    (log : List (ι × out)) :
    credited (fun k => p k.2) (partyLedger post log)
      = credited p (ledger post (log.map Prod.snd)) := by
  induction log with
  | nil => rfl
  | cons e l ih =>
    have hcons : partyLedger post (e :: l)
        = (post e.2).map (Posting.own e.1) ++ partyLedger post l := rfl
    rw [hcons, credited_append, ih, List.map_cons, ledger_cons, credited_append, credited, credited,
      List.map_map]
    congr 2
    refine List.map_congr_left fun m _ => ?_
    cases m <;> rfl

theorem debited_partyLedger (post : out → List (Posting κ α)) (p : κ → Bool)
    (log : List (ι × out)) :
    debited (fun k => p k.2) (partyLedger post log)
      = debited p (ledger post (log.map Prod.snd)) := by
  induction log with
  | nil => rfl
  | cons e l ih =>
    have hcons : partyLedger post (e :: l)
        = (post e.2).map (Posting.own e.1) ++ partyLedger post l := rfl
    rw [hcons, debited_append, ih, List.map_cons, ledger_cons, debited_append, debited, debited,
      List.map_map]
    congr 2
    refine List.map_congr_left fun m _ => ?_
    cases m <;> rfl

end Forget

section Party

variable [DecidableEq ι] [DecidableEq κ] [AddCommGroup α]

theorem balance_map_own (i j : ι) (k : κ) (l : List (Posting κ α)) :
    balance (l.map (Posting.own i)) (j, k) = if i = j then balance l k else 0 := by
  induction l with
  | nil => simp
  | cons e l ih =>
    rw [List.map_cons, balance_cons, ih, balance_cons e l]
    by_cases hij : i = j <;> cases e <;> simp [Posting.own, hij]

/-- A party's balance is that of its own outputs. -/
theorem balance_partyLedger (post : out → List (Posting κ α)) (i : ι) (k : κ)
    (log : List (ι × out)) :
    balance (partyLedger post log) (i, k)
      = balance (ledger post (Parties.outputsOf i log)) k := by
  induction log with
  | nil => simp [partyLedger]
  | cons e l ih =>
    have ih' : balance (ledger (fun e => (post e.2).map (Posting.own e.1)) l) (i, k)
        = balance (ledger post (Parties.outputsOf i l)) k := ih
    by_cases hi : e.1 = i
    · simp [partyLedger, Parties.outputsOf, balance_map_own, hi, ih']
    · simp [partyLedger, Parties.outputsOf, balance_map_own, hi, ih']

variable [LinearOrder α] [IsOrderedAddMonoid α]

/-- **Parties that are each solvent are solvent together.** -/
theorem debited_le_of_forall_party {post : out → List (Posting κ α)} {log : List (ι × out)}
    (h : ∀ i k, 0 ≤ balance (ledger post (Parties.outputsOf i log)) k) (p : ι × κ → Bool) :
    debited p (partyLedger post log) ≤ credited p (partyLedger post log) := by
  refine debited_le_credited (fun ik => ?_) p
  rw [balance_partyLedger]
  exact h ik.1 ik.2

end Party

section FiniteParty

variable [DecidableEq ι] [DecidableEq κ] [AddCommGroup α] [Fintype ι]

theorem sum_map_own (f : (ι × κ → Bool) → Posting (ι × κ) α → α) (g : Posting κ α → α) (k : κ)
    (hf : ∀ i e, f (fun k' => k'.2 = k) (Posting.own i e) = g e)
    (post : out → List (Posting κ α)) (log : List (ι × out)) :
    ((partyLedger post log).map (f fun k' => k'.2 = k)).sum
      = ∑ i, ((ledger post (Parties.outputsOf i log)).map g).sum := by
  induction log with
  | nil => simp [partyLedger]
  | cons e l ih =>
    have hcons : partyLedger post (e :: l)
        = (post e.2).map (Posting.own e.1) ++ partyLedger post l := rfl
    have hhead : (((post e.2).map (Posting.own e.1)).map (f fun k' => k'.2 = k)).sum
        = ((post e.2).map g).sum := by
      rw [List.map_map]
      congr 1
      exact List.map_congr_left fun p _ => hf e.1 p
    have hsplit : ∀ i, ((ledger post (Parties.outputsOf i (e :: l))).map g).sum
        = (if i = e.1 then ((post e.2).map g).sum else 0)
          + ((ledger post (Parties.outputsOf i l)).map g).sum := by
      intro i
      by_cases hi : e.1 = i
      · simp [Parties.outputsOf, hi]
      · simp [Parties.outputsOf, hi, Ne.symm hi]
    rw [hcons, List.map_append, List.sum_append, hhead, ih,
      Finset.sum_congr rfl fun i _ => hsplit i, Finset.sum_add_distrib,
      Finset.sum_ite_eq' Finset.univ e.1 fun _ => ((post e.2).map g).sum,
      if_pos (Finset.mem_univ _)]

variable [LinearOrder α] [IsOrderedAddMonoid α]

/-- **Parties that may each overdraw an account by `b` overdraw it together by `b` each.** -/
theorem debited_le_add_of_forall_party {post : out → List (Posting κ α)} {log : List (ι × out)}
    {k : κ} {b : α} (h : ∀ i, -b ≤ balance (ledger post (Parties.outputsOf i log)) k) :
    debited (fun k' => k'.2 = k) (partyLedger post log)
      ≤ credited (fun k' => k'.2 = k) (partyLedger post log) + Fintype.card ι • b := by
  have hdebited := sum_map_own debitOf (debitOf fun k' => k' = k) k
    (fun i e => by cases e <;> rfl) post log
  have hcredited := sum_map_own creditOf (creditOf fun k' => k' = k) k
    (fun i e => by cases e <;> rfl) post log
  rw [debited, credited, hdebited, hcredited, ← Finset.card_univ, ← Finset.sum_const,
    ← Finset.sum_add_distrib]
  refine Finset.sum_le_sum fun i _ => ?_
  have hi := h i
  rw [balance, neg_le_sub_iff_le_add] at hi
  exact hi

end FiniteParty

end Purse
