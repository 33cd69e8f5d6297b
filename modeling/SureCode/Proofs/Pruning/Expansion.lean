import Mathlib
import SureCode.Proofs.Except
import SureCode.Proofs.Pruning.Conflicts

/-!
# Expansions

A visit of the search is one expansion and then, at a conflict, the two branches (`visit_succ`). The
expansion does not know of the limit or the depth; it may find better levels, and names the conflict
that it leaves behind, if any (`expand`). Both branches at such a conflict exist and have fewer
undecided statuses (`exists_branches_of_expand`).
-/

namespace SureCode

open SureCode.Tree

namespace Search

variable {κ : Type} [Scalar κ] {s : Search κ} {fixed : List Decisions} {p p' : Progress}
  {c : Conflict}

/-- Offering what grows from the decisions. -/
def grown (s : Search κ) (fixed : List Decisions) (p : Progress) : Progress :=
  match s.grow? fixed with
  | some found => p.offer found
  | none => p

/-- The progress after one expansion, and the conflict at which the search branches. -/
def expand (s : Search κ) (fixed : List Decisions) (p : Progress) : Progress × Option Conflict :=
  let p := { p with expansions := p.expansions + 1 }
  match s.selections? fixed with
  | none => (p, none)
  | some selections =>
    if !p.improvedBy (totalCount selections) then (p, none)
    else match firstConflict? s.items selections with
      | none => ({ p with best := some (.ofSelections s.items selections) }, none)
      | some c =>
        (s.grown fixed p,
          if (s.grown fixed p).improvedBy (totalCount selections) then some c else none)

/-- A visit of a branch, if there is one. -/
def visitBranch (s : Search κ) (depth : Nat) (branch : Option (List Decisions)) (p : Progress) :
    Except (PruneError κ) Progress :=
  match branch with
  | some fixed => s.visit depth fixed p
  | none => .ok p

/-- The visits of the two branches at a conflict, one after the other. -/
def visitBranches (s : Search κ) (depth : Nat) (fixed : List Decisions) (p : Progress)
    (c : Conflict) : Except (PruneError κ) Progress := do
  let p ← s.visitBranch depth (s.withKept fixed c) p
  s.visitBranch depth (s.withDropped fixed c) p

theorem visit_succ (depth : Nat) :
    s.visit (depth + 1) fixed p
      = if s.limit ≤ p.expansions then .error (.searchLimitExceeded s.limit)
        else match s.expand fixed p with
          | (p', none) => .ok p'
          | (p', some c) => s.visitBranches depth fixed p' c := by
  rw [visit]
  split
  · rfl
  · unfold expand
    cases s.selections? fixed with
    | none => rfl
    | some selections =>
      dsimp only
      split
      · rfl
      · cases firstConflict? s.items selections with
        | none => rfl
        | some c =>
          change (if (!(s.grown fixed _).improvedBy _) = true then _ else _) = _
          cases improved : (s.grown fixed { p with expansions := p.expansions + 1 }).improvedBy
              (totalCount selections) with
          | false => rfl
          | true =>
            change _ = s.visitBranches depth fixed (s.grown fixed _) c
            unfold visitBranches
            cases s.withKept fixed c <;> rfl

theorem expansions_offer (p : Progress) (found : Levels) :
    (p.offer found).expansions = p.expansions := by
  unfold Progress.offer
  split <;> rfl

theorem expansions_grown (fixed : List Decisions) (p : Progress) :
    (s.grown fixed p).expansions = p.expansions := by
  unfold grown
  split
  · exact expansions_offer p _
  · rfl

/-- An expansion counts once. -/
theorem expansions_of_expand {conflict : Option Conflict}
    (expanded : s.expand fixed p = (p', conflict)) : p'.expansions = p.expansions + 1 := by
  obtain rfl : (s.expand fixed p).1 = p' := congrArg Prod.fst expanded
  unfold expand
  cases s.selections? fixed with
  | none => rfl
  | some selections =>
    dsimp only
    split
    · rfl
    · cases firstConflict? s.items selections with
      | none => rfl
      | some c => exact expansions_grown fixed _

/-- The conflict that an expansion leaves is one of solutions. -/
theorem exists_of_expand (expanded : s.expand fixed p = (p', some c)) :
    ∃ selections, s.selections? fixed = some selections ∧
      firstConflict? s.items selections = some c := by
  have conflict : (s.expand fixed p).2 = some c := congrArg Prod.snd expanded
  unfold expand at conflict
  cases solved : s.selections? fixed with
  | none => simp [solved] at conflict
  | some selections =>
    refine ⟨selections, rfl, ?_⟩
    simp only [solved] at conflict
    split at conflict
    · cases conflict
    · cases first : firstConflict? s.items selections with
      | none => simp [first] at conflict
      | some c' =>
        simp only [first] at conflict
        split at conflict
        · exact conflict
        · cases conflict

section Lawful

variable [LawfulCosts κ] (itemized : Itemized 0 s.knapsack.forest) (indexed : s.Indexed)
  (coherent : s.Coherent fixed)

include itemized indexed coherent

/-- At the conflict of an expansion both branches exist. -/
theorem exists_branches_of_expand (expanded : s.expand fixed p = (p', some c)) :
    ∃ kept dropped, s.Branches fixed c kept dropped := by
  obtain ⟨selections, solved, first⟩ := exists_of_expand expanded
  exact (solutions_of_selections? coherent solved).exists_branches itemized indexed coherent first

end Lawful

theorem Branches.visitBranches_eq {kept dropped : List Decisions}
    (branches : s.Branches fixed c kept dropped) (depth : Nat) (p : Progress) :
    s.visitBranches depth fixed p c
      = s.visit depth kept p >>= fun p => s.visit depth dropped p := by
  rw [visitBranches, branches.withKept_eq, branches.withDropped_eq]
  rfl

end Search

end SureCode
