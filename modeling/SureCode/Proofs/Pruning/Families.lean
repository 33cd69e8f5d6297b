import Mathlib
import SureCode.Proofs.Pruning.Nests
import SureCode.Proofs.Pruning.Solution

/-!
# Families of selections

A family keeps one set of items under each budget, every set within the next looser one. Solving all
budgets by themselves bounds what a family can keep (`Solutions.total_le`), and nested solutions are
a family (`Grounded.valid`). A conflict splits the families, for they are closed and nested
(`Family.nests`): each honours one of the two branches (`Branches.splits`).
-/

namespace SureCode

open SureCode.Tree Exact

namespace Search

variable {s : Search Exact} {fixed : List Decisions} {selections : List Selection}
  {family : Nat → Nat → Bool}

/-! ### Families -/

/-- One set of kept items for each budget, the tighter within the looser. -/
structure Family (s : Search Exact) (family : Nat → Nat → Bool) : Prop where
  selects : ∀ {place : Nat} {budget}, s.budgets[place]? = some budget →
    s.knapsack.Selects budget (family place)
  nested : ∀ {looser tighter i}, looser ≤ tighter → tighter < s.budgets.length → i < s.items →
    family tighter i = true → family looser i = true

/-- The number of items that a family keeps together. -/
def total (s : Search Exact) (family : Nat → Nat → Bool) : Nat :=
  ∑ place ∈ Finset.range s.budgets.length, s.knapsack.count (family place)

/-- A family agrees with what is decided. -/
def Honours (s : Search Exact) (fixed : List Decisions) (family : Nat → Nat → Bool) : Prop :=
  ∀ place < s.budgets.length, s.knapsack.Agrees (statusAt fixed place) (family place)

/-- Levels of a family, with its score. -/
structure Valid (s : Search Exact) (l : Levels) : Prop where
  family : s.Family l.keeps
  score_eq : l.score = s.total l.keeps

/-- The sets of a family are closed and nested. -/
theorem Family.nests (indexed : s.Indexed) (is_family : s.Family family) : s.Nested family where
  closed {place i a} lt inside keep above := by
    have closed := (is_family.selects (List.getElem?_eq_getElem lt)).closed
    rw [show s.index = .ofForest s.knapsack.forest from indexed] at above
    exact closedOn_iff_path.1 closed i inside keep a above
  nested := is_family.nested

/-! ### Nested solutions -/

/-- A sum over a list is a sum over its places. -/
theorem sum_map_eq {α : Type} (f : α → Nat) (l : List α) :
    (l.map f).sum = ∑ place ∈ Finset.range l.length, (l[place]?.map f).getD 0 := by
  induction l with
  | nil => rfl
  | cons a l ih =>
    rw [List.map_cons, List.sum_cons, ih, List.length_cons, Finset.sum_range_succ']
    simp [add_comm]

theorem totalCount_eq (selections : List Selection) :
    totalCount selections
      = ∑ place ∈ Finset.range selections.length, (selections[place]?.map (·.count)).getD 0 := by
  rw [← sum_map_eq]
  induction selections with
  | nil => rfl
  | cons selection rest ih => rw [totalCount, ih, List.map_cons, List.sum_cons]

theorem solves_of_isSolution {k : Knapsack Exact} {budget : Exact} {selection : Selection}
    (proper : Proper 0 k.forest) (solution : k.IsSolution budget selection) :
    k.Solves budget selection := by
  obtain ⟨status, closed, eq⟩ := solution
  exact (Knapsack.solve?_solves proper closed eq).1

/-- The levels of nested solutions are those of a family. -/
theorem Grounded.valid {l : Levels} (proper : Proper 0 s.knapsack.forest)
    (grounded : s.Grounded l) : s.Valid l := by
  obtain ⟨selections, nest, rfl⟩ := grounded
  have items_eq : s.items = s.knapsack.size := rfl
  refine ⟨⟨fun {place budget} at_place => ?_, fun {looser tighter i} le lt inside keep => ?_⟩, ?_⟩
  · obtain ⟨selection, at_selection⟩ :=
      nest.exists_selection (List.getElem?_eq_some_iff.1 at_place).1
    rw [items_eq, nest.keeps_ofSelections at_selection]
    exact (solves_of_isSolution proper (nest.solution at_place at_selection)).selects
  · simp only [Levels.keeps, decide_eq_true_eq] at keep ⊢
    omega
  · change totalCount selections = _
    rw [totalCount_eq, nest.length_eq, total]
    apply Finset.sum_congr rfl
    intro place mem
    have at_budget := List.getElem?_eq_getElem (Finset.mem_range.1 mem)
    obtain ⟨selection, at_selection⟩ := nest.exists_selection (Finset.mem_range.1 mem)
    rw [items_eq, nest.keeps_ofSelections at_selection, at_selection, Option.map_some,
      Option.getD_some]
    exact (solves_of_isSolution proper (nest.solution at_budget at_selection)).count_eq.symm

/-! ### Solving all budgets -/

/-- No family that honours the decisions keeps more than solutions do. -/
theorem Solutions.total_le (proper : Proper 0 s.knapsack.forest) (indexed : s.Indexed)
    (coherent : s.Coherent fixed) (solutions : s.Solutions fixed selections)
    (is_family : s.Family family) (honours : s.Honours fixed family) :
    s.total family ≤ totalCount selections := by
  rw [totalCount_eq, solutions.length_eq, total]
  apply Finset.sum_le_sum
  intro place mem
  have lt := Finset.mem_range.1 mem
  have at_budget := List.getElem?_eq_getElem lt
  obtain ⟨selection, at_place, eq⟩ := solutions.solved at_budget
  rw [at_place, Option.map_some, Option.getD_some]
  obtain ⟨-, -, largest⟩ := Knapsack.solve?_solves proper (coherent.closed indexed place) eq
  exact largest _ (is_family.selects at_budget) (honours place lt)

end Search

end SureCode
