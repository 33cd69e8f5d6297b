import Mathlib
import SureCode.Proofs.Exact
import SureCode.Pruning.CostTable

/-!
# Costs that may be missing

`AtMost o x` says that a cost is present and is a number not above `x`; a missing cost is at most
nothing. The choice of the cheaper of two costs, and of the cheapest of many, is one of them
(`foldl_cheaper_eq_some`) and at most what any of them is at most (`atMost_foldl_of_mem`).
-/

namespace SureCode

open Exact

/-! ### Single costs -/

/-- A cost is a number if it is present. -/
def Numeric (o : Option Exact) : Prop := ∀ x, o = some x → ∃ q : ℚ, x = number q

/-- A cost is present and not above a bound. -/
def AtMost (o : Option Exact) (bound : ℚ) : Prop := ∃ q : ℚ, q ≤ bound ∧ o = some (number q)

theorem numeric_none : Numeric none := by
  simp [Numeric]

theorem numeric_some (q : ℚ) : Numeric (some (number q)) := by
  intro x eq
  exact ⟨q, (Option.some.inj eq).symm⟩

theorem atMost_self (q : ℚ) : AtMost (some (number q)) q := ⟨q, le_rfl, rfl⟩

theorem Numeric.eq_none_or {o : Option Exact} (numeric : Numeric o) :
    o = none ∨ ∃ q : ℚ, o = some (number q) := by
  cases o with
  | none => exact .inl rfl
  | some x =>
    obtain ⟨q, rfl⟩ := numeric x rfl
    exact .inr ⟨q, rfl⟩

/-- A cost that equals a number is that number. -/
theorem Numeric.eq_some_of_beq {o : Option Exact} {q : ℚ} (numeric : Numeric o)
    (same : (o == some (number q)) = true) : o = some (number q) := by
  rcases numeric.eq_none_or with rfl | ⟨r, rfl⟩
  · cases same
  · have : r = q := by simpa using same
    rw [this]

/-! ### Choices -/

/-- The cheaper of two costs is one of them. -/
theorem cheaper_eq_some {κ : Type} [Scalar κ] {o o' : Option κ} {x : κ}
    (eq : cheaper o o' = some x) :
    o = some x ∨ o' = some x := by
  cases o with
  | none => exact .inr (by simpa using eq)
  | some y =>
    cases o' with
    | none => exact .inl (by simpa using eq)
    | some z =>
      simp only [cheaper, Scalar.least, Option.some.injEq] at eq
      split at eq
      · exact .inr (congrArg some eq)
      · exact .inl (congrArg some eq)

theorem Numeric.cheaper {o o' : Option Exact} (left : Numeric o) (right : Numeric o') :
    Numeric (cheaper o o') :=
  fun x eq => (cheaper_eq_some eq).elim (left x) (right x)

theorem AtMost.cheaper_left {o o' : Option Exact} {q : ℚ} (atMost : AtMost o q)
    (numeric : Numeric o') : AtMost (cheaper o o') q := by
  obtain ⟨p, le, rfl⟩ := atMost
  rcases numeric.eq_none_or with rfl | ⟨r, rfl⟩
  · exact ⟨p, le, by simp⟩
  · exact ⟨min p r, (min_le_left p r).trans le, by simp [cheaper]⟩

theorem AtMost.cheaper_right {o o' : Option Exact} {q : ℚ} (numeric : Numeric o)
    (atMost : AtMost o' q) : AtMost (cheaper o o') q := by
  obtain ⟨p, le, rfl⟩ := atMost
  rcases numeric.eq_none_or with rfl | ⟨r, rfl⟩
  · exact ⟨p, le, by simp⟩
  · exact ⟨min r p, (min_le_right r p).trans le, by simp [cheaper]⟩

section Folds

variable {β : Type} {choices : List β}

/-- The cheapest of many is the first cost or that of some choice. -/
theorem foldl_cheaper_eq_some {κ : Type} [Scalar κ] {cost : β → Option κ} {first : Option κ} {x : κ}
    (eq : choices.foldl (fun least b => cheaper least (cost b)) first = some x) :
    first = some x ∨ ∃ b ∈ choices, cost b = some x := by
  induction choices generalizing first with
  | nil => exact .inl eq
  | cons b choices ih =>
    rcases ih eq with eq | ⟨c, mem, eq⟩
    · exact (cheaper_eq_some eq).imp_right fun eq => ⟨b, List.mem_cons_self, eq⟩
    · exact .inr ⟨c, List.mem_cons_of_mem b mem, eq⟩

variable {cost : β → Option Exact} {first : Option Exact}

theorem atMost_foldl_first {q : ℚ} (numeric : ∀ b ∈ choices, Numeric (cost b))
    (atMost : AtMost first q) :
    AtMost (choices.foldl (fun least b => cheaper least (cost b)) first) q := by
  induction choices generalizing first with
  | nil => exact atMost
  | cons b choices ih =>
    rw [List.forall_mem_cons] at numeric
    exact ih numeric.2 (atMost.cheaper_left numeric.1)

/-- The cheapest of many is at most the cost of each. -/
theorem atMost_foldl_of_mem {q : ℚ} {b : β} (numeric_first : Numeric first)
    (numeric : ∀ b ∈ choices, Numeric (cost b)) (mem : b ∈ choices) (atMost : AtMost (cost b) q) :
    AtMost (choices.foldl (fun least b => cheaper least (cost b)) first) q := by
  induction choices generalizing first with
  | nil => simp at mem
  | cons c choices ih =>
    rw [List.forall_mem_cons] at numeric
    rw [List.foldl_cons]
    rcases List.mem_cons.1 mem with rfl | mem
    · exact atMost_foldl_first numeric.2 (.cheaper_right numeric_first atMost)
    · exact ih (numeric_first.cheaper numeric.1) numeric.2 mem

end Folds

/-! ### Sums -/

theorem addCosts_eq_some {κ : Type} [Scalar κ] {o o' : Option κ} {x : κ}
    (eq : addCosts o o' = some x) :
    ∃ y z, o = some y ∧ o' = some z ∧ x = y + z := by
  cases o <;> cases o' <;> simp_all [addCosts]

theorem Numeric.addCosts {o o' : Option Exact} (left : Numeric o) (right : Numeric o') :
    Numeric (addCosts o o') := by
  intro x eq
  obtain ⟨y, z, rfl, rfl, rfl⟩ := addCosts_eq_some eq
  obtain ⟨p, rfl⟩ := left y rfl
  obtain ⟨q, rfl⟩ := right z rfl
  exact ⟨p + q, rfl⟩

theorem AtMost.addCosts {o o' : Option Exact} {p q : ℚ} (left : AtMost o p) (right : AtMost o' q) :
    AtMost (addCosts o o') (p + q) := by
  obtain ⟨x, le, rfl⟩ := left
  obtain ⟨y, le', rfl⟩ := right
  exact ⟨x + y, add_le_add le le', rfl⟩

/-! ### Hole budgets -/

namespace HoleBudget

/-- Whether so many holes may be opened. -/
def Allows (budget : HoleBudget) (holes : Nat) : Prop := ∀ most, budget = some most → holes ≤ most

/-- The row of the holes of two rows together. Without a budget all holes share one row. -/
def add (budget : HoleBudget) (row holes : Nat) : Nat :=
  match budget with
  | none => 0
  | some _ => row + holes

variable {budget : HoleBudget} {items row first second holes : Nat}

theorem add_add : budget.add (budget.add row first) second = budget.add row (first + second) := by
  cases budget <;> simp [add, Nat.add_assoc]

theorem add_add_zero : budget.add row (budget.add 0 holes) = budget.add row holes := by
  cases budget <;> simp [add]

theorem add_zero_of_lt (lt : row < budget.rows items) : budget.add row 0 = row := by
  cases budget with
  | none =>
    simp only [rows] at lt
    simp only [add]
    omega
  | some most => rfl

theorem le_of_add_lt (lt : budget.add row (first + second) < budget.rows items) :
    budget.add row first < budget.rows items := by
  cases budget with
  | none => exact lt
  | some most =>
    simp only [add] at lt ⊢
    omega

/-- The holes of a table's rows are those that the budget allows. -/
theorem add_lt_rows (le : holes ≤ items) (allows : budget.Allows holes) :
    budget.add 0 holes < budget.rows items := by
  cases budget with
  | none => simp [add, rows]
  | some most =>
    have := allows most rfl
    simp only [add, rows]
    omega

theorem allows_of_add_lt (lt : budget.add 0 holes < budget.rows items) : budget.Allows holes := by
  rintro most rfl
  simp only [add, rows] at lt
  omega

theorem beforeFresh?_eq_some (lt : row < budget.rows items) :
    budget.beforeFresh? row = some first ↔
      first < budget.rows items ∧ row = budget.add first 1 := by
  cases budget with
  | none =>
    simp only [rows] at lt
    simp only [beforeFresh?, Option.some.injEq, rows, add]
    omega
  | some most =>
    cases row with
    | zero => simp [beforeFresh?, add]
    | succ row =>
      simp only [beforeFresh?, Option.some.injEq, add]
      omega

theorem mem_splits (lt : row < budget.rows items) :
    (first, second) ∈ budget.splits row ↔
      first < budget.rows items ∧ second < budget.rows items ∧ row = budget.add first second := by
  cases budget with
  | none =>
    simp only [rows] at lt
    simp only [splits, List.mem_singleton, Prod.mk.injEq, rows, add]
    omega
  | some most =>
    simp only [splits, List.mem_map, List.mem_range, Prod.mk.injEq, add]
    constructor
    · rintro ⟨_, le, rfl, rfl⟩
      omega
    · rintro ⟨-, -, rfl⟩
      exact ⟨first, by omega, rfl, by omega⟩

end HoleBudget

end SureCode
