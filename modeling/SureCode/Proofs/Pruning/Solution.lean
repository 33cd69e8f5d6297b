import Mathlib
import SureCode.Proofs.Pruning.Knapsack

/-!
# The knapsack is exact

`solve?` finds a selection within the budget whenever there is one, and of these a cheapest of the
largest (`solve?_eq_some`, `exists_solve?`). `Selects` says the same of sets of kept items, which is
what the search over several budgets compares; in these words a solution is a cheapest of the largest
sets that the budget allows after what is decided (`solve?_optimal`).
-/

namespace SureCode

open SureCode.Tree Exact

namespace Knapsack

variable {k : Knapsack Exact} {status : Nat → Status}

/-! ### The cheapest row -/

section Rows

variable {table : CostTable Exact} {budget : Exact} {count rows : Nat}

/-- The best of the leading rows fits, and is the cheapest of those that fit. -/
structure IsCheapest (table : CostTable Exact) (budget : Exact) (count rows : Nat)
    (best : Option (Nat × Exact)) : Prop where
  found : ∀ {row x}, best = some (row, x) →
    row < rows ∧ table.cost? row count = some x ∧ fits budget x = true
  least : ∀ {row y}, row < rows → table.cost? row count = some (number y) →
    fits budget (number y) = true → ∃ row' x, best = some (row', number x) ∧ x ≤ y

/-- A row leaves the best as it is when it is missing, does not fit, or costs no less. -/
theorem IsCheapest.skip {best : Option (Nat × Exact)}
    (cheapest : IsCheapest table budget count rows best)
    (useless : ∀ y, table.cost? rows count = some (number y) → fits budget (number y) = true →
      ∃ row x, best = some (row, number x) ∧ x ≤ y) :
    IsCheapest table budget count (rows + 1) best := by
  refine ⟨fun {row x} eq => ?_, fun {row y} lt eq fit => ?_⟩
  · obtain ⟨lt, rest⟩ := cheapest.found eq
    exact ⟨by omega, rest⟩
  · rcases Nat.lt_succ_iff_lt_or_eq.1 lt with lt | rfl
    · exact cheapest.least lt eq fit
    · exact useless y eq fit

/-- A row that fits and costs no more than the best so far takes its place. -/
theorem IsCheapest.take {best : Option (Nat × Exact)} {q : ℚ}
    (cheapest : IsCheapest table budget count rows best)
    (cost : table.cost? rows count = some (number q)) (fit : fits budget (number q) = true)
    (better : ∀ row x, best = some (row, number x) → q ≤ x) :
    IsCheapest table budget count (rows + 1) (some (rows, number q)) := by
  refine ⟨fun {row x} eq => ?_, fun {row y} lt eq fit => ⟨rows, q, rfl, ?_⟩⟩
  · obtain ⟨rfl, rfl⟩ := Prod.mk.inj (Option.some.inj eq)
    exact ⟨Nat.lt_succ_self rows, cost, fit⟩
  · rcases Nat.lt_succ_iff_lt_or_eq.1 lt with lt | rfl
    · obtain ⟨row', x, best_eq, le⟩ := cheapest.least lt eq fit
      exact (better row' x best_eq).trans le
    · rw [cost] at eq
      exact (Exact.number.inj (Option.some.inj eq)).le

theorem isCheapest_better {best : Option (Nat × Exact)}
    (numeric : Numeric (table.cost? rows count))
    (cheapest : IsCheapest table budget count rows best)
    (best_numeric : ∀ row x, best = some (row, x) → ∃ q, x = number q) :
    IsCheapest table budget count (rows + 1) (better table budget count best rows) := by
  rcases numeric.eq_none_or with none | ⟨q, some⟩
  · simp only [better, none]
    exact cheapest.skip (by simp [none])
  have only {y : ℚ} (eq : table.cost? rows count = Option.some (number y)) : y = q := by
    rw [some] at eq
    exact (Exact.number.inj (Option.some.inj eq)).symm
  cases fit : fits budget (number q) with
  | false =>
    simp only [better, some, fit]
    apply cheapest.skip
    intro y eq fit'
    rw [only eq, fit] at fit'
    cases fit'
  | true =>
    cases best with
    | none =>
      simp only [better, some, fit, Bool.not_true, Bool.false_eq_true, if_false]
      exact cheapest.take some fit (by simp)
    | some pair =>
      obtain ⟨row', x'⟩ := pair
      obtain ⟨p, rfl⟩ := best_numeric row' x' rfl
      simp only [better, some, fit, Bool.not_true, Bool.false_eq_true, if_false, totalLt_number,
        decide_eq_true_eq]
      split
      case isTrue less =>
        apply cheapest.take some fit
        rintro _ _ ⟨⟩
        exact less.le
      case isFalse more =>
        apply cheapest.skip
        intro y eq _
        exact ⟨row', p, rfl, (not_lt.1 more).trans_eq (only eq).symm⟩

theorem isCheapest_foldl (proper : table.Proper k.rows) (budget : Exact) (count rows : Nat) :
    IsCheapest table budget count rows
      ((List.range rows).foldl (better table budget count) none) := by
  induction rows with
  | zero => exact ⟨by simp, by simp⟩
  | succ rows ih =>
    rw [List.range_succ, List.foldl_append, List.foldl_cons, List.foldl_nil]
    exact isCheapest_better (proper.numeric rows count) ih fun row x eq =>
      proper.numeric row count x (ih.found eq).2.1

theorem cheapestRow?_eq_some {row : Nat} (proper : table.Proper k.rows)
    (eq : k.cheapestRow? table budget count = some row) :
    ∃ x, table.cost? row count = some (number x) ∧ fits budget (number x) = true ∧
      ∀ holes y, table.cost? holes count = some (number y) → fits budget (number y) = true →
        x ≤ y := by
  rw [cheapestRow?_eq, Option.map_eq_some_iff] at eq
  obtain ⟨⟨_, x⟩, best, rfl⟩ := eq
  have cheapest := isCheapest_foldl proper budget count k.rows
  obtain ⟨-, cost, fit⟩ := cheapest.found best
  obtain ⟨q, rfl⟩ := proper.numeric _ _ x cost
  refine ⟨q, cost, fit, fun holes y cost' fit' => ?_⟩
  obtain ⟨_, _, best', le⟩ := cheapest.least (proper.row_lt cost') cost' fit'
  rw [best] at best'
  simp only [Option.some.injEq, Prod.mk.injEq, Exact.number.injEq] at best'
  linarith

theorem exists_cheapestRow? {holes : Nat} {y : ℚ} (proper : table.Proper k.rows)
    (cost : table.cost? holes count = some (number y)) (fit : fits budget (number y) = true) :
    ∃ row, k.cheapestRow? table budget count = some row := by
  obtain ⟨row, x, best, -⟩ :=
    (isCheapest_foldl proper budget count k.rows).least (proper.row_lt cost) cost fit
  exact ⟨row, by rw [cheapestRow?_eq, best]; rfl⟩

end Rows

/-! ### Solutions -/

/-- A search from the last number on finds the largest one. -/
theorem findSome?_reverse_range {β : Type} {f : Nat → Option β} {n : Nat} {b : β}
    (eq : (List.range n).reverse.findSome? f = some b) :
    ∃ c < n, f c = some b ∧ ∀ d < n, c < d → f d = none := by
  induction n with
  | zero => simp at eq
  | succ n ih =>
    rw [List.range_succ, List.reverse_append, List.reverse_singleton, List.singleton_append,
      List.findSome?_cons] at eq
    cases last : f n with
    | some c =>
      rw [last] at eq
      exact ⟨n, Nat.lt_succ_self n, by rw [last, ← eq], fun d _ _ => by omega⟩
    | none =>
      rw [last] at eq
      obtain ⟨c, lt, eq, larger⟩ := ih eq
      refine ⟨c, by omega, eq, fun d lt less => ?_⟩
      rcases Nat.lt_succ_iff_lt_or_eq.1 lt with lt | rfl
      · exact larger d lt less
      · exact last

section Solve

variable {budget : Exact} {items : List Nat} {cost : ℚ}

/-- A selection agrees with what is decided, opens no more holes than allowed and fits a budget. -/
def Admits (k : Knapsack Exact) (status : Nat → Status) (budget : Exact) (items : List Nat)
    (cost : ℚ) : Prop :=
  ∃ holes, Picks Item.price status k.forest items holes cost ∧ k.maxHoles.Allows holes ∧
    fits budget (number cost) = true

theorem proper_table (proper : Proper 0 k.forest) : (k.table status).Proper k.rows :=
  proper_steps proper (CostTable.proper_nothing k.rows)

/-- An admitted selection has an entry of at most its cost. -/
theorem atMost_table {holes : Nat} (proper : Proper 0 k.forest)
    (picks : Picks Item.price status k.forest items holes cost) (allows : k.maxHoles.Allows holes) :
    AtMost ((k.table status).cost? (k.maxHoles.add 0 holes) items.length) cost := by
  have lt : k.maxHoles.add 0 holes < k.rows :=
    HoleBudget.add_lt_rows (by have := picks.length_add_holes_le; rw [size]; omega) allows
  have := atMost_steps picks proper (CostTable.proper_nothing k.rows) lt
    (CostTable.atMost_nothing (k.maxHoles.rows_pos k.size))
  rwa [zero_add, zero_add] at this

/-- An entry has an admitted selection of its cost. -/
theorem picks_of_entry {holes count : Nat} (proper : Proper 0 k.forest)
    (entry : (k.table status).cost? holes count = some (number cost)) :
    ∃ opened, Picks Item.price status k.forest
        (k.traceAll holes count (k.steps status (.nothing k.rows) k.forest).1).1 opened cost ∧
      k.maxHoles.Allows opened ∧
        count
          = (k.traceAll holes count (k.steps status (.nothing k.rows) k.forest).1).1.length := by
  have lt : holes < k.rows := (proper_table proper).row_lt entry
  obtain ⟨opened, x, cost', picks, first, sum, rows, counts⟩ :=
    traceAll_spec proper (CostTable.proper_nothing k.rows) entry
  obtain ⟨row_zero, count_zero, x_zero⟩ := CostTable.cost?_nothing first
  obtain rfl := Exact.number.inj (x_zero.trans zero_eq_number)
  obtain rfl : cost = cost' := by linarith
  rw [row_zero] at rows
  rw [count_zero, zero_add] at counts
  exact ⟨opened, picks, HoleBudget.allows_of_add_lt (rows ▸ lt), counts⟩

/-- There is a solution if any selection is admitted. -/
theorem exists_solve? (proper : Proper 0 k.forest) (admits : k.Admits status budget items cost) :
    ∃ selection, k.solve? status budget = some selection := by
  obtain ⟨holes, picks, allows, fit⟩ := admits
  obtain ⟨x, le, entry⟩ := atMost_table proper picks allows
  obtain ⟨row, cheapest⟩ := exists_cheapestRow? (proper_table proper) entry (fits_mono le fit)
  rw [← Option.isSome_iff_exists, solve?_eq, List.findSome?_isSome_iff]
  refine ⟨items.length, ?_, by simp [cheapest]⟩
  simpa using (proper_table proper).column_lt entry

/-- A solution is an admitted selection, the largest there is, and a cheapest of that size. -/
theorem solve?_eq_some {selection : Selection} (proper : Proper 0 k.forest)
    (eq : k.solve? status budget = some selection) :
    ∃ items cost, k.Admits status budget items cost ∧ selection.count = items.length ∧
      (∀ i, selection.keeps i = true ↔ i ∈ items) ∧
        ∀ items' cost', k.Admits status budget items' cost' →
          items'.length ≤ selection.count ∧ (items'.length = selection.count → cost ≤ cost') := by
  rw [solve?_eq] at eq
  obtain ⟨count, -, found, larger⟩ := findSome?_reverse_range eq
  obtain ⟨row, cheapest, rfl⟩ := Option.map_eq_some_iff.1 found
  obtain ⟨x, entry, fit, least⟩ := cheapestRow?_eq_some (proper_table proper) cheapest
  obtain ⟨opened, picks, allows, counts⟩ := picks_of_entry proper entry
  refine ⟨_, x, ⟨opened, picks, allows, fit⟩, counts, fun i => ?_, ?_⟩
  · rw [keeps_selectionOf]
    apply and_iff_left_of_imp
    intro mem
    have := picks.bounds proper.numbers i mem
    rw [size]
    omega
  · rintro items' cost' ⟨holes', picks', allows', fit'⟩
    obtain ⟨y, le, entry'⟩ := atMost_table proper picks' allows'
    have fit_y := fits_mono le fit'
    refine ⟨?_, fun same => (least _ y (same ▸ entry') fit_y).trans le⟩
    by_contra more
    obtain ⟨row', cheapest'⟩ := exists_cheapestRow? (proper_table proper) entry' fit_y
    have := larger items'.length ((proper_table proper).column_lt entry') (not_le.1 more)
    simp [cheapest'] at this

end Solve

/-! ### Sets of kept items -/

section Sets

/-- The number of kept items. -/
def count (k : Knapsack Exact) (kept : Nat → Bool) : Nat := (keptOn kept k.numbered).length

/-- A set of kept items is closed, opens no more holes than allowed and fits a budget. -/
structure Selects (k : Knapsack Exact) (budget : Exact) (kept : Nat → Bool) : Prop where
  closed : ClosedOn kept k.numbered
  allows : k.maxHoles.Allows (holesOn kept k.numbered)
  fit : fits budget (number (costOn Item.price kept k.numbered)) = true

theorem selects_iff {budget : Exact} {kept : Nat → Bool} :
    k.Selects budget kept ↔
      k.Permits kept ∧ fits budget (number (costOn Item.price kept k.numbered)) = true :=
  ⟨fun ⟨closed, allows, fit⟩ => ⟨⟨closed, allows⟩, fit⟩,
    fun ⟨⟨closed, allows⟩, fit⟩ => ⟨closed, allows, fit⟩⟩

/-- A selection fits a budget and knows its size. -/
structure Solves (k : Knapsack Exact) (budget : Exact) (selection : Selection) : Prop where
  selects : k.Selects budget selection.keeps
  count_eq : k.count selection.keeps = selection.count

variable {budget : Exact} {kept : Nat → Bool}

theorem Selects.admits (proper : Proper 0 k.forest) (selects : k.Selects budget kept)
    (agrees : k.Agrees status kept) :
    k.Admits status budget (keptOn kept k.numbered) (costOn Item.price kept k.numbered) := by
  refine ⟨_, Picks.of_closed proper.numbers rfl selects.closed fun i _ lt => ?_, selects.allows,
    selects.fit⟩
  exact agrees i (by rw [size]; omega)

theorem Admits.selects {items : List Nat} {cost : ℚ} (proper : Proper 0 k.forest)
    (admits : k.Admits status budget items cost) (same : ∀ i, kept i = true ↔ i ∈ items) :
    k.Selects budget kept ∧ k.count kept = items.length ∧
      costOn Item.price kept k.numbered = cost := by
  obtain ⟨holes, picks, allows, fit⟩ := admits
  obtain ⟨closed, kept_eq, holes_eq, cost_eq⟩ :=
    picks.accounts [] proper.numbers (fun i _ _ => same i) rfl
  refine ⟨⟨closed, ?_, ?_⟩, congrArg List.length kept_eq, cost_eq⟩
  · rwa [numbered, holes_eq]
  · rwa [numbered, cost_eq]

/-- A set that fits and agrees with what is decided has a solution. -/
theorem exists_solve?_of_selects (proper : Proper 0 k.forest) (selects : k.Selects budget kept)
    (agrees : k.Agrees status kept) : ∃ selection, k.solve? status budget = some selection :=
  exists_solve? proper (selects.admits proper agrees)

/-- A solution fits and agrees with what is decided, and no such set is larger. -/
theorem solve?_solves {selection : Selection} (proper : Proper 0 k.forest)
    (decided : ClosedOn (fun i => status i == .kept) k.numbered)
    (eq : k.solve? status budget = some selection) :
    k.Solves budget selection ∧ k.Agrees status selection.keeps ∧
      ∀ kept, k.Selects budget kept → k.Agrees status kept → k.count kept ≤ selection.count := by
  obtain ⟨items, cost, admits, count_eq, same, largest⟩ := solve?_eq_some proper eq
  obtain ⟨selects, kept_count, -⟩ := admits.selects proper same
  exact ⟨⟨selects, kept_count.trans count_eq.symm⟩, solve?_agrees proper.itemized eq decided,
    fun kept selects agrees => (largest _ _ (selects.admits proper agrees)).1⟩

end Sets

/-! ### Optimal selections -/

section Optimum

variable {budget : Exact} {selection : Selection}

/-- The cost of a set of kept items. -/
def cost (k : Knapsack Exact) (kept : Nat → Bool) : ℚ := costOn Item.price kept k.numbered

/-- The sets of kept items that a budget allows after what is decided. -/
def feasible (k : Knapsack Exact) (status : Nat → Status) (budget : Exact) : Set (Nat → Bool) :=
  {kept | k.Selects budget kept ∧ k.Agrees status kept}

theorem count_eq_countP (k : Knapsack Exact) (kept : Nat → Bool) :
    k.count kept = (List.range k.size).countP kept := by
  have numbers : List.range k.size = k.numbered.map (·.2) := by
    rw [numbered, map_snd_numbered, List.range_eq_range']
    rfl
  rw [numbers, List.countP_map, count, keptOn, List.length_map, List.countP_eq_length_filter]
  rfl

/-- A selection has as many marks as it keeps items. -/
theorem count_true_kept (selection : Selection) :
    selection.kept.values.count true
      = (List.range selection.kept.size).countP selection.keeps := by
  have marks : selection.kept.values.toList
      = (List.range selection.kept.size).map selection.keeps := by
    apply List.ext_getElem (by simp [SideTable.size])
    intro i lt _
    rw [Array.length_toList] at lt
    simp [Selection.keeps, SideTable.get?, lt]
  rw [← Array.count_toList, marks, List.count, List.countP_map]
  exact List.countP_congr fun i _ => by simp

/-- A solution has one mark for each item. -/
theorem size_kept_of_solve? (eq : k.solve? status budget = some selection) :
    selection.kept.size = k.size := by
  rw [solve?_eq] at eq
  obtain ⟨count, -, found, -⟩ := findSome?_reverse_range eq
  obtain ⟨row, -, rfl⟩ := Option.map_eq_some_iff.1 found
  exact (SideTable.size_foldl_replace _ _ _).trans (SideTable.size_filled _ _)

/-- There is a solution exactly when some set is feasible. A solution is a feasible set with one mark
for each item, keeps as many items as any feasible set and costs as little as any that keeps as many.
What is decided has to be closed for kept items only, since a set that drops an item drops all below
it anyway. -/
theorem solve?_optimal (proper : Proper 0 k.forest)
    (decided : ClosedOn (fun i => status i == .kept) k.numbered) :
    (k.solve? status budget = none ↔ k.feasible status budget = ∅) ∧
      ∀ selection, k.solve? status budget = some selection →
        selection.keeps ∈ k.feasible status budget ∧ selection.kept.size = k.size ∧
          selection.kept.values.count true = selection.count ∧
          IsGreatest (k.count '' k.feasible status budget) selection.count ∧
          IsLeast (k.cost '' {kept ∈ k.feasible status budget | k.count kept = selection.count})
            (k.cost selection.keeps) := by
  have sound {selection : Selection} (eq : k.solve? status budget = some selection) :
      selection.keeps ∈ k.feasible status budget := by
    obtain ⟨solves, agrees, -⟩ := solve?_solves proper decided eq
    exact ⟨solves.selects, agrees⟩
  constructor
  · constructor
    · intro none
      refine Set.eq_empty_iff_forall_notMem.2 fun kept ⟨selects, agrees⟩ => ?_
      obtain ⟨selection, eq⟩ := exists_solve?_of_selects proper selects agrees
      rw [none] at eq
      cases eq
    · intro empty
      by_contra found
      obtain ⟨selection, eq⟩ := Option.ne_none_iff_exists'.1 found
      have mem := sound eq
      rw [empty] at mem
      exact mem
  · intro selection eq
    obtain ⟨solves, -, largest⟩ := solve?_solves proper decided eq
    obtain ⟨items, cost, admits, -, same, best⟩ := solve?_eq_some proper eq
    have cost_eq : k.cost selection.keeps = cost := (admits.selects proper same).2.2
    have size_eq := size_kept_of_solve? eq
    refine ⟨sound eq, size_eq, ?_, ⟨⟨_, sound eq, solves.count_eq⟩, ?_⟩,
      ⟨⟨_, ⟨sound eq, solves.count_eq⟩, rfl⟩, ?_⟩⟩
    · rw [count_true_kept, size_eq, ← count_eq_countP]
      exact solves.count_eq
    · rintro _ ⟨kept, ⟨selects, agrees⟩, rfl⟩
      exact largest kept selects agrees
    · rintro _ ⟨kept, ⟨⟨selects, agrees⟩, same_count⟩, rfl⟩
      rw [cost_eq]
      exact (best _ _ (selects.admits proper agrees)).2 same_count

/-- An item over a cheap and a dear one, beside a cheap one, with room for one hole. -/
def quartet : Knapsack Exact where
  forest :=
    [node ⟨0, number 1⟩ [node ⟨1, number (1 / 2)⟩ [], node ⟨2, number 2⟩ []],
      node ⟨3, number (1 / 4)⟩ []]
  maxHoles := some 1

/-- The first item is kept beforehand. -/
def firstKept (item : Nat) : Status := if item = 0 then .kept else .free

theorem solve?_optimal_quartet :
    ∃ selection, quartet.solve? firstKept (number 2) = some selection ∧
      selection.kept.values = #[true, true, false, true] ∧
      IsGreatest (quartet.count '' quartet.feasible firstKept (number 2)) 3 ∧
      IsLeast (quartet.cost '' {kept ∈ quartet.feasible firstKept (number 2) |
        quartet.count kept = 3}) (quartet.cost selection.keeps) := by
  have proper : Proper 0 quartet.forest := by
    refine ⟨by decide, ?_⟩
    simp [quartet, preorderAll]
  have decided : ClosedOn (fun i => firstKept i == .kept) quartet.numbered := by
    unfold ClosedOn
    decide
  have solved : (quartet.solve? firstKept (number 2)).map
      (fun selection => (selection.count, selection.kept.values))
        = some (3, #[true, true, false, true]) := by
    decide +kernel
  obtain ⟨selection, eq, marks⟩ := Option.map_eq_some_iff.1 solved
  obtain ⟨count, values⟩ := Prod.mk.inj marks
  obtain ⟨-, -, -, greatest, least⟩ := (solve?_optimal proper decided).2 selection eq
  rw [count] at greatest least
  exact ⟨selection, eq, values, greatest, least⟩

end Optimum

end Knapsack

end SureCode
