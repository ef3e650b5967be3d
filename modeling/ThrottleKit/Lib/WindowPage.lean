import Mathlib.Algebra.Order.Group.Defs
import Mathlib.Algebra.Order.Group.MinMax
import Mathlib.Tactic.Linarith

/-!
# The page of a window

What a coordinator keeps of the window that is current: what is left of its budget, and whether
something has been given back to it. Tokens are taken from the page, which is opened with the full
budget; what is left over is given back to it once.

There are two ways to give back to a page that is not open: nothing happens, or the page is opened,
and then it has been given back to. Two coordinators that differ in this grant the same, as long as
nothing is given back to a page that only one of them has marked.

## Main definitions

* `Page`, `take`, `giveBack`, `giveBackOpening` — the page of a window and what is done with it
* `Page.Within` — the budget is within its bounds
* `Agree` — the pages of two coordinators that give back in different ways

## Main results

* `within_take`, `within_credit` — the budget stays within its bounds
* `Agree.take`, `Agree.giveBack` — two coordinators stay in agreement
-/

namespace WindowPage

variable {K : Type*} [AddCommGroup K] [LinearOrder K]

/-- The page of a window. -/
structure Page (K : Type*) where
  budget : K
  /-- Something has been given back. -/
  credited : Bool

/-- The page as it is found: one that is not there is opened with the full budget. -/
def opened (B : K) (p : Option (Page K)) : Page K := p.getD ⟨B, false⟩

/-- Take what there is of some tokens. -/
def take (B tokens : K) (p : Option (Page K)) : Page K × K :=
  let page := opened B p
  let granted := min tokens page.budget
  (⟨page.budget - granted, page.credited⟩, granted)

/-- Credit what is left over, up to the budget, unless something was given back before. -/
def Page.credit (B leftover : K) (page : Page K) : Page K :=
  if page.credited then page else ⟨min B (page.budget + leftover), true⟩

/-- Give back to a page that is there. -/
def giveBack (B leftover : K) (p : Option (Page K)) : Option (Page K) :=
  p.map (Page.credit B leftover)

/-- Give back to a page, which is opened when it is not there. -/
def giveBackOpening (B leftover : K) (p : Option (Page K)) : Option (Page K) :=
  some ((opened B p).credit B leftover)

/-- The budget of a page is within its bounds. -/
structure Page.Within (B : K) (page : Page K) : Prop where
  nonneg : 0 ≤ page.budget
  le : page.budget ≤ B

variable {B tokens leftover : K} {p p' : Option (Page K)}

theorem within_opened (hB : 0 ≤ B) (h : ∀ page ∈ p, page.Within B) : (opened B p).Within B := by
  cases p with
  | none => exact ⟨hB, le_rfl⟩
  | some page => exact h page rfl

variable [IsOrderedAddMonoid K]

theorem within_take (hB : 0 ≤ B) (htokens : 0 ≤ tokens) (h : ∀ page ∈ p, page.Within B) :
    (take B tokens p).1.Within B := by
  obtain ⟨hnonneg, hle⟩ := within_opened hB h
  refine ⟨sub_nonneg.mpr (min_le_right _ _), ?_⟩
  exact (sub_le_self _ (le_min htokens hnonneg)).trans hle

theorem within_credit {page : Page K} (hleftover : 0 ≤ leftover) (h : page.Within B) :
    (page.credit B leftover).Within B := by
  rw [Page.credit]
  split
  · exact h
  · exact ⟨le_min (h.nonneg.trans h.le) (add_nonneg h.nonneg hleftover), min_le_left _ _⟩

theorem within_giveBackOpening (hB : 0 ≤ B) (hleftover : 0 ≤ leftover)
    (h : ∀ page ∈ p, page.Within B) : ∀ page ∈ giveBackOpening B leftover p, page.Within B := by
  intro page hpage
  obtain rfl := Option.some.inj hpage
  exact within_credit hleftover (within_opened hB h)

/-! ### Two coordinators -/

/-- The pages of a coordinator that gives back to open pages only, and of one that opens them. -/
inductive Agree (B : K) : Option (Page K) → Option (Page K) → Prop
  | closed : Agree B none none
  /-- Something was given back before anything was taken. -/
  | given : Agree B none (some ⟨B, true⟩)
  | both (b : K) {c c' : Bool} (h : c = true → c' = true) : Agree B (some ⟨b, c⟩) (some ⟨b, c'⟩)

omit [IsOrderedAddMonoid K] in
/-- **The same is taken from both.** -/
theorem Agree.take (h : Agree B p p') (tokens : K) :
    (take B tokens p).2 = (WindowPage.take B tokens p').2 ∧
      Agree B (some (WindowPage.take B tokens p).1) (some (WindowPage.take B tokens p').1) := by
  cases h with
  | closed => exact ⟨rfl, .both _ id⟩
  | given => exact ⟨rfl, .both _ fun h => by cases h⟩
  | both b h => exact ⟨rfl, .both _ h⟩

/-- **Giving back keeps the agreement**, where both have the page marked that one of them has. -/
theorem Agree.giveBack (h : Agree B p p') (hleftover : 0 ≤ leftover)
    (hmarks : ∀ page ∈ p, page.credited = false → ∀ page' ∈ p', page'.credited = false) :
    Agree B (giveBack B leftover p) (giveBackOpening B leftover p') := by
  cases h with
  | closed =>
    have hfull : min B (B + leftover) = B := min_eq_left (le_add_of_nonneg_right hleftover)
    show Agree B none (some (Page.credit B leftover ⟨B, false⟩))
    rw [Page.credit, if_neg Bool.false_ne_true, hfull]
    exact .given
  | given => exact .given
  | both b himp =>
    rename_i c c'
    show Agree B (some (Page.credit B leftover ⟨b, c⟩)) (some (Page.credit B leftover ⟨b, c'⟩))
    cases c with
    | true =>
      obtain rfl := himp rfl
      exact .both b id
    | false =>
      obtain rfl : c' = false := hmarks _ rfl rfl _ rfl
      exact .both _ id

end WindowPage
