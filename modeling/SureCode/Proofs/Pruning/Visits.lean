import Mathlib
import SureCode.Proofs.Pruning.Limits

/-!
# Visits of a search

Which visits a run of the search makes: the first one, and from every visit that branches the visits
of its two branches, the second of them only after the first has ended (`Search.Visits`). A run that
fails has reached the visit that it fails at (`Visits.exists_exceeding`). Each visit decides more
than the one before it and stays coherent, so that none is ever cut off by its depth
(`Visits.coherent`). What holds at its conflict is in `visits_invariant`: both branches exist, and
between them they have all nested families that the visit has.
-/

namespace SureCode

open SureCode.Tree

variable {κ : Type} [Scalar κ]

namespace Search

/-- The visits that a run reaches, with their depth, their decisions and the progress before
them. -/
inductive Visits (s : Search κ) : Nat → List Decisions → Progress → Prop where
  | first (budgeted : s.budgets ≠ []) : Visits s s.cutoff s.start ⟨0, none⟩
  | kept {depth : Nat} {fixed branch : List Decisions} {p p₁ : Progress} {c : Conflict}
      (visit : Visits s (depth + 1) fixed p) (within : p.expansions < s.limit)
      (expanded : s.expand fixed p = (p₁, some c))
      (exist : s.withKept fixed c = some branch) : Visits s depth branch p₁
  | dropped {depth : Nat} {fixed branch : List Decisions} {p p₁ p₂ : Progress} {c : Conflict}
      (visit : Visits s (depth + 1) fixed p) (within : p.expansions < s.limit)
      (expanded : s.expand fixed p = (p₁, some c))
      (ended : s.visitBranch depth (s.withKept fixed c) p₁ = .ok p₂)
      (exist : s.withDropped fixed c = some branch) : Visits s depth branch p₂

variable {s : Search κ} {depth : Nat} {fixed branch : List Decisions} {p p₁ : Progress}
  {c : Conflict} {e : PruneError κ}

/-- Where a run fails, it has reached a visit that its limit leaves no expansion for. -/
theorem Visits.exists_exceeding (visit : s.Visits depth fixed p)
    (failed : s.visit depth fixed p = .error e) :
    ∃ depth' fixed' p', s.Visits depth' fixed' p' ∧ s.limit ≤ p'.expansions := by
  induction depth generalizing fixed p with
  | zero => cases failed
  | succ depth ih =>
    rw [visit_succ] at failed
    by_cases reached : s.limit ≤ p.expansions
    · exact ⟨depth + 1, fixed, p, visit, reached⟩
    · rw [if_neg reached] at failed
      have within : p.expansions < s.limit := Nat.lt_of_not_le reached
      rcases expanded : s.expand fixed p with ⟨p₁, _ | c⟩
      · rw [expanded] at failed
        cases failed
      · rw [expanded] at failed
        rcases bind_eq_error_iff.1 failed with first | ⟨p₂, ended, second⟩
        · cases exist : s.withKept fixed c with
          | none =>
            rw [exist] at first
            cases first
          | some kept =>
            rw [exist] at first
            exact ih (.kept visit within expanded exist) first
        · cases exist : s.withDropped fixed c with
          | none =>
            rw [exist] at second
            cases second
          | some dropped =>
            rw [exist] at second
            exact ih (.dropped visit within expanded ended exist) second

section Lawful

variable [LawfulCosts κ] (itemized : Itemized 0 s.knapsack.forest) (indexed : s.Indexed)

include itemized indexed

/-- A branch at the conflict of an expansion is coherent and decides more. -/
theorem coherent_branch (coherent : s.Coherent fixed) (expanded : s.expand fixed p = (p₁, some c))
    (exist : s.withKept fixed c = some branch ∨ s.withDropped fixed c = some branch) :
    s.Coherent branch ∧ s.undecided branch < s.undecided fixed := by
  obtain ⟨kept, dropped, branches⟩ := exists_branches_of_expand itemized indexed coherent expanded
  rcases exist with exist | exist
  · obtain rfl := Option.some.inj (branches.withKept_eq.symm.trans exist)
    exact ⟨branches.kept_coherent, branches.kept_lt⟩
  · obtain rfl := Option.some.inj (branches.withDropped_eq.symm.trans exist)
    exact ⟨branches.dropped_coherent, branches.dropped_lt⟩

/-- Every visit has coherent decisions and fewer undecided statuses than its depth. -/
theorem Visits.coherent (visit : s.Visits depth fixed p) :
    s.Coherent fixed ∧ s.undecided fixed < depth := by
  induction visit with
  | first => exact ⟨coherent_start, Nat.lt_succ_of_le undecided_le⟩
  | kept _ _ expanded exist ih =>
    have step := coherent_branch itemized indexed ih.1 expanded (.inl exist)
    exact ⟨step.1, by omega⟩
  | dropped _ _ expanded _ exist ih =>
    have step := coherent_branch itemized indexed ih.1 expanded (.inr exist)
    exact ⟨step.1, by omega⟩

end Lawful

end Search

namespace Node

/-- The search over the items of a tree for some budgets. -/
def searchWithin (t : Node κ) (maxHoles : HoleBudget) (limit : Nat) (budgets : List κ) :
    Search κ where
  knapsack := ⟨(Outline.ofNode t).forest, maxHoles⟩
  index := (Outline.ofNode t).index
  budgets
  limit

/-- Exact pruning searches with what the root leaves of each threshold that has a selection. -/
theorem exactSearch_eq (t : Node κ) (maxHoles : HoleBudget) (limit : Nat) (thresholds : List κ) :
    t.exactSearch maxHoles limit thresholds = t.searchWithin maxHoles limit
      (((Outline.ofNode t).feasible maxHoles thresholds).map
        fun threshold => threshold - (Outline.ofNode t).rootCharge) := rfl

/-- Every visit that a search over a tree reaches has coherent decisions: what is kept is kept with
all that is above it and under all looser budgets, and what is dropped is dropped with all that is
below it and under all tighter ones. Where the solutions of a visit have a conflict, both of its
branches exist and have fewer undecided statuses, and a nested family that respects the decisions
respects those of one of them. -/
theorem visits_invariant [LawfulCosts κ] (t : Node κ) (maxHoles : HoleBudget) (limit : Nat)
    (budgets : List κ) {depth : Nat} {fixed : List Decisions} {p : Progress}
    (visit : (t.searchWithin maxHoles limit budgets).Visits depth fixed p) :
    let s := t.searchWithin maxHoles limit budgets
    s.Coherent fixed ∧ s.undecided fixed < depth ∧
      ∀ selections c, s.selections? fixed = some selections →
        firstConflict? s.items selections = some c →
          ∃ kept dropped, s.Branches fixed c kept dropped := by
  intro s
  have itemized : Itemized 0 s.knapsack.forest := itemized_itemsAllFrom 0 t.children
  have indexed : s.Indexed := rfl
  obtain ⟨coherent, deep⟩ := visit.coherent itemized indexed
  refine ⟨coherent, deep, fun selections c solved conflict => ?_⟩
  exact (Search.solutions_of_selections? coherent solved).exists_branches itemized indexed coherent
    conflict

/-- A root that costs nothing, with a dear node above three free ones, and two cheap leaves. -/
def dearAndCheap : Node Exact :=
  node (costing (some 0))
    [node (costing (some 5)) [leaf (costing (some 0)), leaf (costing (some 0)),
      leaf (costing (some 0))], leaf (costing (some 1)), leaf (costing (some 1))]

open Exact in
/-- The loose budget prefers the dear node and the tight one the leaves. The branch that keeps the
first leaf under both is visited. -/
theorem visits_invariant_dearAndCheap :
    let s := dearAndCheap.searchWithin none 100 [number 5, number 2]
    ∃ kept dropped p, s.Branches s.start ⟨4, 0⟩ kept dropped ∧ s.Visits 12 kept p ∧
      s.Coherent kept := by
  intro s
  have deep : s.cutoff = 12 + 1 := by
    decide +kernel
  have first : s.Visits (12 + 1) s.start ⟨0, none⟩ := deep ▸ .first (List.cons_ne_nil _ _)
  have branches : (s.expand s.start ⟨0, none⟩).2 = some ⟨4, 0⟩ := by
    decide +kernel
  rcases expanded : s.expand s.start ⟨0, none⟩ with ⟨p, conflict⟩
  rw [expanded] at branches
  obtain rfl : conflict = some ⟨4, 0⟩ := branches
  obtain ⟨selections, solved, conflict⟩ := Search.exists_of_expand expanded
  obtain ⟨kept, dropped, both⟩ :=
    (visits_invariant dearAndCheap none 100 _ first).2.2 selections ⟨4, 0⟩ solved conflict
  have second : s.Visits 12 kept p := .kept first (Nat.zero_lt_succ 99) expanded both.withKept_eq
  exact ⟨kept, dropped, p, both, second, (visits_invariant dearAndCheap none 100 _ second).1⟩

end Node

end SureCode
