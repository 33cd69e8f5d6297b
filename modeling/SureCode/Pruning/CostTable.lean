import SureCode.Scalar

/-!
# Cost tables

A cost table knows, for every number of holes and every number of items, the least cost of a
selection that opens so many holes and keeps so many items; a selection that does not exist has no
cost. The rows are the numbers of holes that a hole budget tells apart: with a budget of `m` there
are at most `m + 1`, and without a budget holes are not counted and one row holds all.
-/

namespace SureCode

variable {κ : Type}

/-! ### Costs that may be missing -/

/-- The least of two costs; a missing cost is greater than any other. -/
def cheaper [Scalar κ] : Option κ → Option κ → Option κ
  | none, y => y
  | x, none => x
  | some x, some y => some (Scalar.least x y)

/-- The sum of two costs, if there are both. -/
def addCosts [Scalar κ] : Option κ → Option κ → Option κ
  | some x, some y => some (x + y)
  | _, _ => none

@[simp] theorem cheaper_none_left [Scalar κ] (x : Option κ) : cheaper none x = x := by
  cases x <;> rfl

@[simp] theorem cheaper_none_right [Scalar κ] (x : Option κ) : cheaper x none = x := by
  cases x <;> rfl

/-! ### Hole budgets -/

/-- How many holes may be opened; without a bound, any number. -/
abbrev HoleBudget := Option Nat

namespace HoleBudget

/-- The number of rows that count holes among so many items. -/
def rows (budget : HoleBudget) (items : Nat) : Nat :=
  match budget with
  | none => 1
  | some most => min most items + 1

/-- The row from which one more hole leads to a row. -/
def beforeFresh? (budget : HoleBudget) (row : Nat) : Option Nat :=
  match budget, row with
  | none, _ => some row
  | some _, 0 => none
  | some _, row + 1 => some row

/-- The pairs of rows that lead to a row together, by the first of the pair. -/
def splits (budget : HoleBudget) (row : Nat) : List (Nat × Nat) :=
  match budget with
  | none => [(row, row)]
  | some _ => (List.range (row + 1)).map fun first => (first, row - first)

theorem rows_pos (budget : HoleBudget) (items : Nat) : 0 < budget.rows items := by
  cases budget <;> simp [rows]

end HoleBudget

/-! ### Tables -/

/-- Costs by holes and by items. -/
structure CostTable (κ : Type) where
  /-- The number of columns: one more than the greatest number of items. -/
  columns : Nat
  rows : Array (Array (Option κ))
deriving Repr, Inhabited

namespace CostTable

/-- The table with the given costs. -/
def tabulate (rows columns : Nat) (cost : Nat → Nat → Option κ) : CostTable κ where
  columns
  rows := Array.ofFn fun holes : Fin rows => Array.ofFn fun count : Fin columns => cost holes count

/-- The least cost for some holes and some items. -/
def cost? (table : CostTable κ) (holes count : Nat) : Option κ :=
  match table.rows[holes]? with
  | none => none
  | some row => row[count]?.join

theorem cost?_tabulate (rows columns : Nat) (cost : Nat → Nat → Option κ) (holes count : Nat) :
    (tabulate rows columns cost).cost? holes count
      = if holes < rows ∧ count < columns then cost holes count else none := by
  by_cases h : holes < rows <;> by_cases c : count < columns <;>
    simp [tabulate, cost?, h, c]

/-- The table of no items at no cost. -/
def nothing [Scalar κ] (rows : Nat) : CostTable κ :=
  tabulate rows 1 fun holes _ => if holes = 0 then some Scalar.zero else none

/-- The table of one item. -/
def single [Scalar κ] (rows : Nat) (cost : κ) : CostTable κ :=
  tabulate rows 2 fun holes count => if holes = 0 ∧ count = 1 then some cost else none

end CostTable

end SureCode
