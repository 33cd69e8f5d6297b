import Mathlib
import SureCode.Proofs.Pruning.Commitments

/-!
# The tables of a knapsack

The tables of a knapsack hold the least cost of a selection for every number of holes and of kept
items: a selection (`Picks`) taken in after a table has an entry of at most its cost
(`atMost_steps`), and reading back from an entry gives a selection of that very cost
(`traceAll_spec`).
-/

namespace SureCode

open SureCode.Tree Exact

/-- Items whose costs are numbers from zero on are lawful ones. -/
theorem Proper.itemized {start : Nat} {ts : Forest} (proper : Proper start ts) :
    Itemized start ts := by
  refine ⟨proper.numbers, fun item mem => ?_⟩
  obtain ⟨x, nonneg, eq⟩ := proper.costs item mem
  exact zero_le_iff.2 (.inr ⟨x, nonneg, eq⟩)

/-! ### Tables -/

/-- Every entry of a table is a number within its rows and columns. -/
structure CostTable.Proper (rows : Nat) (table : CostTable Exact) : Prop where
  columns_pos : 0 < table.columns
  row_lt : ∀ {holes count x}, table.cost? holes count = some x → holes < rows
  column_lt : ∀ {holes count x}, table.cost? holes count = some x → count < table.columns
  numeric : ∀ holes count, Numeric (table.cost? holes count)

namespace CostTable

theorem Proper.tabulate {rows columns : Nat} {cost : Nat → Nat → Option Exact} (pos : 0 < columns)
    (numeric : ∀ holes count, Numeric (cost holes count)) :
    (tabulate rows columns cost).Proper rows := by
  refine ⟨pos, fun {holes count x} eq => ?_, fun {holes count x} eq => ?_, fun holes count => ?_⟩
  · rw [cost?_tabulate] at eq
    by_contra outside
    simp [outside] at eq
  · rw [cost?_tabulate] at eq
    by_contra outside
    simp only [CostTable.tabulate] at outside
    simp [outside] at eq
  · rw [cost?_tabulate]
    split
    · exact numeric holes count
    · exact numeric_none

theorem proper_nothing (rows : Nat) : (nothing rows : CostTable Exact).Proper rows := by
  refine .tabulate Nat.one_pos fun holes count => ?_
  split
  · rw [zero_eq_number]
    exact numeric_some 0
  · exact numeric_none

theorem proper_single (rows : Nat) (x : ℚ) : (single rows (number x)).Proper rows := by
  refine .tabulate Nat.two_pos fun holes count => ?_
  split
  · exact numeric_some x
  · exact numeric_none

theorem atMost_nothing {rows : Nat} (pos : 0 < rows) :
    AtMost ((nothing rows : CostTable Exact).cost? 0 0) 0 := by
  rw [nothing, cost?_tabulate]
  simpa [pos] using atMost_self 0

theorem atMost_single {rows : Nat} (pos : 0 < rows) (x : ℚ) :
    AtMost ((single rows (number x)).cost? 0 1) x := by
  rw [single, cost?_tabulate]
  simpa [pos] using atMost_self x

end CostTable

namespace Knapsack

variable {k : Knapsack Exact} {status : Nat → Status}

/-! ### Taking in one item -/

section Extend

variable {left own : CostTable Exact} {holes count row₁ count₁ row₂ count₂ : Nat} {decided : Status}

theorem numeric_dropped? (proper : left.Proper k.rows) (holes count : Nat) :
    Numeric (k.dropped? decided left holes count) := by
  unfold dropped? dropCost?
  split
  · exact numeric_none
  · cases k.maxHoles.beforeFresh? holes with
    | none => exact numeric_none
    | some row => exact proper.numeric row count

theorem numeric_splitCost? (left_proper : left.Proper k.rows) (own_proper : own.Proper k.rows)
    (s : Split) : Numeric (splitCost? left own s) :=
  (left_proper.numeric _ _).addCosts (own_proper.numeric _ _)

theorem proper_extend {own : Option (CostTable Exact)} (left_proper : left.Proper k.rows)
    (own_proper : ∀ o, own = some o → o.Proper k.rows) :
    (k.extend left decided own).Proper k.rows := by
  cases own with
  | none =>
    exact .tabulate left_proper.columns_pos fun holes count =>
      numeric_dropped? left_proper holes count
  | some own =>
    have own_proper := own_proper own rfl
    unfold extend
    refine .tabulate ?_ fun holes count x eq => ?_
    · show 0 < left.columns + own.columns - 1
      have := left_proper.columns_pos
      have := own_proper.columns_pos
      omega
    · rcases foldl_cheaper_eq_some eq with eq | ⟨s, -, eq⟩
      · exact numeric_dropped? left_proper holes count x eq
      · exact numeric_splitCost? left_proper own_proper s x eq

theorem atMost_extend_drop {own : Option (CostTable Exact)} {x : ℚ}
    (left_proper : left.Proper k.rows) (own_proper : ∀ o, own = some o → o.Proper k.rows)
    (may : decided ≠ .kept) (lt : k.maxHoles.add row₁ 1 < k.rows)
    (atMost : AtMost (left.cost? row₁ count) x) :
    AtMost ((k.extend left decided own).cost? (k.maxHoles.add row₁ 1) count) x := by
  obtain ⟨y, le, eq⟩ := atMost
  have fresh : k.maxHoles.beforeFresh? (k.maxHoles.add row₁ 1) = some row₁ :=
    (HoleBudget.beforeFresh?_eq_some lt).2 ⟨left_proper.row_lt eq, rfl⟩
  have dropped : k.dropped? decided left (k.maxHoles.add row₁ 1) count = some (number y) := by
    simp only [dropped?, if_neg may, dropCost?, fresh, Option.bind_some, eq]
  have column := left_proper.column_lt eq
  cases own with
  | none =>
    rw [cost?_extend_none, if_pos ⟨lt, column⟩, dropped]
    exact ⟨y, le, rfl⟩
  | some own =>
    have own_proper := own_proper own rfl
    have := own_proper.columns_pos
    rw [cost?_extend_some, if_pos ⟨lt, by omega⟩, dropped]
    exact atMost_foldl_first (fun s _ => numeric_splitCost? left_proper own_proper s) ⟨y, le, rfl⟩

theorem atMost_extend_keep {x y : ℚ} (left_proper : left.Proper k.rows)
    (own_proper : own.Proper k.rows) (lt : k.maxHoles.add row₁ row₂ < k.rows)
    (left_atMost : AtMost (left.cost? row₁ count₁) x)
    (own_atMost : AtMost (own.cost? row₂ count₂) y) :
    AtMost ((k.extend left decided (some own)).cost? (k.maxHoles.add row₁ row₂) (count₁ + count₂))
      (x + y) := by
  obtain ⟨p, -, eqp⟩ := id left_atMost
  obtain ⟨q, -, eqq⟩ := id own_atMost
  have column₁ := left_proper.column_lt eqp
  have column₂ := own_proper.column_lt eqq
  have mem : ⟨row₁, count₁, row₂, count₂⟩ ∈
      k.splits left own (k.maxHoles.add row₁ row₂) (count₁ + count₂) :=
    (mem_splits lt).2
      ⟨⟨left_proper.row_lt eqp, own_proper.row_lt eqq, rfl⟩, column₁, column₂, rfl⟩
  rw [cost?_extend_some, if_pos ⟨lt, by omega⟩]
  exact atMost_foldl_of_mem (numeric_dropped? left_proper _ _)
    (fun s _ => numeric_splitCost? left_proper own_proper s) mem
    (left_atMost.addCosts own_atMost)

end Extend

/-! ### Taking in a forest -/

section Steps

variable {before : CostTable Exact} {start : Nat} {item : Item Exact} {us ts : Forest}

theorem proper_after (table : before.Proper k.rows)
    (own : (k.ownTable status item us).Proper k.rows) :
    (k.after status before item us).Proper k.rows := by
  by_cases dropped : status item.number = .dropped
  · rw [after_of_dropped dropped]
    exact proper_extend table (by simp)
  · rw [after_of_not_dropped dropped]
    exact proper_extend table fun o eq => Option.some.inj eq ▸ own

theorem proper_steps (proper : Proper start ts) (table : before.Proper k.rows) :
    (k.steps status before ts).2.Proper k.rows := by
  induction ts using forest_induction generalizing start before with
  | nil => rwa [steps_nil]
  | cons item us ts below rest =>
    obtain ⟨-, price⟩ := proper.cost
    obtain ⟨-, proper_below, proper_rest⟩ := proper.split
    rw [steps_cons]
    exact rest proper_rest
      (proper_after table (below proper_below (price ▸ CostTable.proper_single _ _)))

theorem proper_ownTable (proper : Proper start us) {x : ℚ} (price : item.cost = number x) :
    (k.ownTable status item us).Proper k.rows :=
  proper_steps proper (price ▸ CostTable.proper_single _ _)

/-- A selection taken in after a table has an entry of at most its cost. -/
theorem atMost_steps {kept : List Nat} {holes row count : Nat} {cost x : ℚ}
    (picks : Picks Item.price status ts kept holes cost) (proper : Proper start ts)
    (table : before.Proper k.rows) (lt : k.maxHoles.add row holes < k.rows)
    (atMost : AtMost (before.cost? row count) x) :
    AtMost ((k.steps status before ts).2.cost? (k.maxHoles.add row holes) (count + kept.length))
      (x + cost) := by
  induction picks generalizing start before row count x with
  | nil =>
    obtain ⟨y, -, eq⟩ := id atMost
    rw [steps_nil, add_zero]
    rwa [HoleBudget.add_zero_of_lt (show row < k.maxHoles.rows k.size from table.row_lt eq)]
  | @drop item us ts kept holes cost may rest ih =>
    obtain ⟨-, price⟩ := proper.cost
    obtain ⟨-, proper_below, proper_rest⟩ := proper.split
    rw [steps_cons, add_comm holes 1, ← HoleBudget.add_add]
    rw [add_comm holes 1] at lt
    have own : (k.ownTable status item us).Proper k.rows := proper_ownTable proper_below price
    refine ih proper_rest (proper_after table own) (by rwa [HoleBudget.add_add]) ?_
    have lt := HoleBudget.le_of_add_lt lt
    by_cases dropped : status item.number = .dropped
    · rw [after_of_dropped dropped]
      exact atMost_extend_drop table (by simp) (by simp) lt atMost
    · rw [after_of_not_dropped dropped]
      exact atMost_extend_drop table (fun o eq => Option.some.inj eq ▸ own) may lt atMost
  | @keep item us ts kept₁ holes₁ cost₁ kept₂ holes₂ cost₂ may picks_below picks_rest ih₁ ih₂ =>
    obtain ⟨-, price⟩ := proper.cost
    obtain ⟨-, proper_below, proper_rest⟩ := proper.split
    have own : (k.ownTable status item us).Proper k.rows := proper_ownTable proper_below price
    have rows_pos : 0 < k.rows := k.maxHoles.rows_pos k.size
    have lt₁ := HoleBudget.le_of_add_lt lt
    have lt_own : k.maxHoles.add 0 holes₁ < k.rows := by
      refine lt_of_le_of_lt ?_ lt₁
      cases k.maxHoles <;> simp [HoleBudget.add]
    -- the item with the selection below it, in its own table
    have own_atMost : AtMost ((k.ownTable status item us).cost? (k.maxHoles.add 0 holes₁)
        (1 + kept₁.length)) (item.price + cost₁) :=
      ih₁ proper_below (price ▸ CostTable.proper_single _ _) lt_own
        (price ▸ CostTable.atMost_single rows_pos _)
    have rows_eq : k.maxHoles.add row (k.maxHoles.add 0 holes₁) = k.maxHoles.add row holes₁ :=
      HoleBudget.add_add_zero
    have after_atMost : AtMost ((k.after status before item us).cost? (k.maxHoles.add row holes₁)
        (count + (1 + kept₁.length))) (x + (item.price + cost₁)) := by
      rw [after_of_not_dropped may, ← rows_eq]
      exact atMost_extend_keep table own (rows_eq ▸ lt₁) atMost own_atMost
    have := ih₂ proper_rest (proper_after table own) (by rwa [HoleBudget.add_add]) after_atMost
    rw [HoleBudget.add_add] at this
    have count_eq : count + (item.number :: (kept₁ ++ kept₂)).length
        = count + (1 + kept₁.length) + kept₂.length := by
      simp only [List.length_cons, List.length_append]
      omega
    have cost_eq : x + (item.price + cost₁ + cost₂) = x + (item.price + cost₁) + cost₂ := by ring
    rw [steps_cons, count_eq, cost_eq]
    exact this

end Steps

/-! ### Reading back -/

section Trace

variable {before : CostTable Exact} {start holes count : Nat} {item : Item Exact} {us ts : Forest}
  {target : ℚ}

/-- What reading back gives: a selection and the place of the entry before it. -/
structure Traced (k : Knapsack Exact) (status : Nat → Status) (before : CostTable Exact)
    (ts : Forest) (holes count : Nat) (target : ℚ) (read : List Nat × Nat × Nat) : Prop where
  exists_picks : ∃ opened x cost, Picks Item.price status ts read.1 opened cost ∧
    before.cost? read.2.1 read.2.2 = some (number x) ∧ target = x + cost ∧
      holes = k.maxHoles.add read.2.1 opened ∧ count = read.2.2 + read.1.length

/-- An item that was dropped when the entry was made. -/
theorem Traced.drop {row : Nat} (may : status item.number ≠ .kept)
    (rows : holes = k.maxHoles.add row 1) (entry : before.cost? row count = some (number target)) :
    Traced k status before [node item us] holes count target ([], row, count) :=
  ⟨1, target, 0, .drop may .nil, entry, (add_zero target).symm, rows, rfl⟩

/-- An item that was kept when the entry was made. -/
theorem Traced.keep {split : Split} {x : ℚ} {read : List Nat × Nat × Nat}
    (may : status item.number ≠ .dropped) (price : item.cost = number item.price)
    (rows : holes = k.maxHoles.add split.holesLeft split.holesOwn)
    (counts : count = split.countLeft + split.countOwn)
    (entry : before.cost? split.holesLeft split.countLeft = some (number x))
    (below : Traced k status (.single k.rows item.cost) us split.holesOwn split.countOwn
      (target - x) read) :
    Traced k status before [node item us] holes count target
      (item.number :: read.1, split.holesLeft, split.countLeft) := by
  obtain ⟨opened, z, cost, picks, entry_below, sum, rows_below, counts_below⟩ := below
  obtain ⟨row_zero, count_one, price_eq⟩ := CostTable.cost?_single entry_below
  obtain rfl := Exact.number.inj (price_eq.trans price)
  refine ⟨opened, x, item.price + cost, ?_, entry, by linarith, ?_, ?_⟩
  · simpa using Picks.keep may picks .nil
  · rw [rows, rows_below, row_zero, HoleBudget.add_add_zero]
  · simp only [List.length_cons]
    omega

/-- Reading back one step, when the steps below it can be read back. -/
theorem trace_step (proper : Proper start (node item us :: ts)) (table : before.Proper k.rows)
    (below : ∀ {holes count target},
      (k.ownTable status item us).cost? holes count = some (number target) →
      Traced k status (.single k.rows item.cost) us holes count target
        (k.traceAll holes count (k.steps status (.single k.rows item.cost) us).1))
    (entry : (k.after status before item us).cost? holes count = some (number target)) :
    Traced k status before [node item us] holes count target
      (k.trace holes count (k.step status before (node item us))) := by
  obtain ⟨-, price⟩ := proper.cost
  have own : (k.ownTable status item us).Proper k.rows := proper_ownTable proper.split.2.1 price
  have lt : holes < k.rows := (proper_after table own).row_lt entry
  have self : (number target == number target) = true := LawfulScalar.beq_self _ rfl
  rcases trace_step_cases self entry with
    ⟨row, may, fresh, same, read⟩ | ⟨split, may, mem, same, read⟩
  · rw [read]
    exact .drop may ((HoleBudget.beforeFresh?_eq_some lt).1 fresh).2
      ((table.numeric row count).eq_some_of_beq same)
  · obtain ⟨⟨-, -, rows⟩, -, -, counts⟩ := (mem_splits lt).1 mem
    obtain ⟨_, _, before_entry, own_entry, sum⟩ :=
      addCosts_eq_some ((numeric_splitCost? table own split).eq_some_of_beq same)
    obtain ⟨x, rfl⟩ := table.numeric _ _ _ before_entry
    obtain ⟨z, rfl⟩ := own.numeric _ _ _ own_entry
    have inside := below own_entry
    obtain rfl : target = x + z := Exact.number.inj sum
    rw [read]
    exact .keep may price rows counts before_entry (by rwa [add_sub_cancel_left])

/-- Every entry can be read back to a selection of its cost. -/
theorem traceAll_spec (proper : Proper start ts) (table : before.Proper k.rows)
    (entry : (k.steps status before ts).2.cost? holes count = some (number target)) :
    Traced k status before ts holes count target
      (k.traceAll holes count (k.steps status before ts).1) := by
  induction ts using forest_induction generalizing start before holes count target with
  | nil =>
    rw [steps_nil] at entry ⊢
    rw [traceAll]
    have row := HoleBudget.add_zero_of_lt
      (show holes < k.maxHoles.rows k.size from table.row_lt entry)
    exact ⟨0, target, 0, .nil, entry, (add_zero target).symm, row.symm, rfl⟩
  | cons item us ts below rest =>
    obtain ⟨-, price⟩ := proper.cost
    obtain ⟨-, proper_below, proper_rest⟩ := proper.split
    have own : (k.ownTable status item us).Proper k.rows := proper_ownTable proper_below price
    rw [steps_cons] at entry ⊢
    obtain ⟨opened₂, x₂, cost₂, picks₂, entry₂, sum₂, rows₂, counts₂⟩ :=
      rest proper_rest (proper_after table own) entry
    obtain ⟨opened₁, x₁, cost₁, picks₁, entry₁, sum₁, rows₁, counts₁⟩ :=
      trace_step proper table (fun own_entry => below proper_below
        (price ▸ CostTable.proper_single _ _) own_entry) entry₂
    rw [traceAll]
    refine ⟨opened₁ + opened₂, x₁, cost₁ + cost₂, picks₁.cons picks₂, entry₁, by linarith, ?_, ?_⟩
    · exact rows₂.trans ((congrArg (k.maxHoles.add · opened₂) rows₁).trans HoleBudget.add_add)
    · refine counts₂.trans ((congrArg (· + _) counts₁).trans ?_)
      rw [List.length_append]
      exact Nat.add_assoc ..

end Trace

end Knapsack

end SureCode
