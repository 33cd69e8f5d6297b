import Mathlib
import SureCode.Proofs.Pruning.Families

/-!
# The search is exhaustive

The search leaves a branch only when no family that honours its decisions beats the best levels it
has seen (`Explores`). One expansion does so unless it comes to a conflict (`expand_spec`). Each
branch has fewer undecided statuses than the one before, so the depth suffices (`visit_spec`). The
levels are always those of a family, so a search that ends has found a best one (`run_eq_ok`,
`run_eq_error`).
-/

namespace SureCode

open SureCode.Tree Exact

namespace Search

variable {s : Search Exact} {fixed : List Decisions} {selections : List Selection}
  {family : Nat → Nat → Bool}

/-! ### Progress -/

/-- The best so far has at least some score. -/
def Reaches (p : Progress) (score : Nat) : Prop := ∃ l, p.best = some l ∧ score ≤ l.score

theorem Reaches.mono {p : Progress} {score more : Nat} (reaches : Reaches p more)
    (le : score ≤ more) : Reaches p score := by
  obtain ⟨l, best, le'⟩ := reaches
  exact ⟨l, best, le.trans le'⟩

theorem reaches_of_not_improvedBy {p : Progress} {score : Nat} (eq : p.improvedBy score = false) :
    Reaches p score := by
  unfold Progress.improvedBy at eq
  cases best : p.best with
  | none => simp [best] at eq
  | some l => exact ⟨l, best, by simpa [best] using eq⟩

theorem not_reaches_of_improvedBy {p : Progress} {score : Nat} (eq : p.improvedBy score = true)
    {l : Levels} (best : p.best = some l) : l.score < score := by
  simpa [Progress.improvedBy, best] using eq

/-- What a visit does: its best never gets worse, and no family that honours the decisions beats
it. -/
structure Explores (s : Search Exact) (fixed : List Decisions) (p p' : Progress) : Prop where
  grows : ∀ {score}, Reaches p score → Reaches p' score
  covers : ∀ {family}, s.Family family → s.Honours fixed family → Reaches p' (s.total family)

/-- What becomes of a visit: it explores or reaches the limit. -/
def Outcome (s : Search Exact) (fixed : List Decisions) (p : Progress) :
    Except (PruneError Exact) Progress → Prop
  | .error e => e = .searchLimitExceeded s.limit
  | .ok p' => s.Explores fixed p p'

theorem reaches_offer {p : Progress} {found : Levels} {score : Nat} (reaches : Reaches p score) :
    Reaches (p.offer found) score := by
  unfold Progress.offer
  split
  case isTrue better =>
    obtain ⟨l, best, le⟩ := reaches
    exact ⟨found, rfl, le.trans (not_reaches_of_improvedBy better best).le⟩
  case isFalse => exact reaches

/-- A branch whose bound is reached has no better family. -/
theorem Explores.of_bound {p p' : Progress} {bound : Nat}
    (grows : ∀ {score}, Reaches p score → Reaches p' score) (reaches : Reaches p' bound)
    (total_le : ∀ {family}, s.Family family → s.Honours fixed family → s.total family ≤ bound) :
    s.Explores fixed p p' :=
  ⟨grows, fun is_family honours => reaches.mono (total_le is_family honours)⟩

/-- Where a budget has no solution, no family honours the decisions. -/
theorem Explores.of_unsolved {p p' : Progress} (proper : Proper 0 s.knapsack.forest)
    (grows : ∀ {score}, Reaches p score → Reaches p' score)
    (none : s.selections? fixed = none) : s.Explores fixed p p' := by
  refine ⟨grows, fun is_family honours => ?_⟩
  obtain ⟨place, budget, at_place, unsolved⟩ := exists_unsolved none
  obtain ⟨selection, solution⟩ := Knapsack.exists_solve?_of_selects proper
    (is_family.selects at_place) (honours place (List.getElem?_eq_some_iff.1 at_place).1)
  simp [unsolved] at solution

/-- Exploring both branches of a conflict explores all. -/
theorem Explores.branch {kept dropped : List Decisions} {p p₁ p₂ p₃ : Progress}
    (grows : ∀ {score}, Reaches p score → Reaches p₁ score) (first : s.Explores kept p₁ p₂)
    (second : s.Explores dropped p₂ p₃)
    (branches : ∀ {family}, s.Family family → s.Honours fixed family →
      s.Honours kept family ∨ s.Honours dropped family) :
    s.Explores fixed p p₃ := by
  refine ⟨fun reaches => second.grows (first.grows (grows reaches)),
    fun is_family honours => ?_⟩
  rcases branches is_family honours with honours | honours
  · exact second.grows (first.covers is_family honours)
  · exact second.covers is_family honours

/-- What a first branch leaves, a second one explores. -/
theorem Outcome.branch {kept dropped : List Decisions} {p p₁ : Progress}
    {result : Except (PruneError Exact) Progress}
    {next : Progress → Except (PruneError Exact) Progress}
    (grows : ∀ {score}, Reaches p score → Reaches p₁ score) (first : s.Outcome kept p₁ result)
    (second : ∀ p₂, s.Outcome dropped p₂ (next p₂))
    (branches : ∀ {family}, s.Family family → s.Honours fixed family →
      s.Honours kept family ∨ s.Honours dropped family) :
    s.Outcome fixed p (result.bind next) := by
  cases result with
  | error e => exact first
  | ok p₂ =>
    have last := second p₂
    change s.Outcome fixed p (next p₂)
    cases visited : next p₂ with
    | error e =>
      rw [visited] at last
      exact last
    | ok p₃ =>
      rw [visited] at last
      exact Explores.branch grows first last branches

/-! ### Visits -/

theorem reaches_grown {p : Progress} {score : Nat} (reaches : Reaches p score) :
    Reaches (s.grown fixed p) score := by
  unfold grown
  cases s.grow? fixed with
  | none => exact reaches
  | some levels => exact reaches_offer reaches

/-- What one expansion leaves to do: nothing, or the branches at an open conflict. -/
theorem expand_spec {p p₁ : Progress} {conflict : Option Conflict}
    (proper : Proper 0 s.knapsack.forest) (indexed : s.Indexed) (coherent : s.Coherent fixed)
    (expanded : s.expand fixed p = (p₁, conflict)) :
    (∀ {score}, Reaches p score → Reaches p₁ score) ∧
      (conflict = none → s.Explores fixed p p₁) := by
  let p₀ : Progress := { p with expansions := p.expansions + 1 }
  have same {score : Nat} (reaches : Reaches p score) : Reaches p₀ score := reaches
  unfold expand at expanded
  cases solved : s.selections? fixed with
  | none =>
    rw [solved] at expanded
    obtain ⟨rfl, rfl⟩ := Prod.mk.inj expanded
    exact ⟨same, fun _ => .of_unsolved proper same solved⟩
  | some selections =>
    have solutions := solutions_of_selections? coherent solved
    have total_le {family : Nat → Nat → Bool} (is_family : s.Family family)
        (honours : s.Honours fixed family) : s.total family ≤ totalCount selections :=
      solutions.total_le proper indexed coherent is_family honours
    simp only [solved] at expanded
    split at expanded
    case isTrue reached =>
      obtain ⟨rfl, rfl⟩ := Prod.mk.inj expanded
      exact ⟨same, fun _ =>
        .of_bound same (reaches_of_not_improvedBy (by simpa using reached)) total_le⟩
    case isFalse improved =>
      cases first : firstConflict? s.items selections with
      | none =>
        -- nested solutions are a best family
        rw [first] at expanded
        obtain ⟨rfl, rfl⟩ := Prod.mk.inj expanded
        have grows {score : Nat} (reaches : Reaches p score) :
            Reaches ⟨p.expansions + 1, some (.ofSelections s.items selections)⟩ score := by
          obtain ⟨l, best, le⟩ := reaches
          have : l.score < totalCount selections :=
            not_reaches_of_improvedBy (p := p₀) (by simpa using improved) best
          exact ⟨_, rfl, le.trans this.le⟩
        exact ⟨grows, fun _ => .of_bound grows ⟨_, rfl, le_rfl⟩ total_le⟩
      | some c =>
        rw [first] at expanded
        obtain ⟨rfl, rfl⟩ := Prod.mk.inj expanded
        have grows {score : Nat} (reaches : Reaches p score) :
            Reaches (s.grown fixed p₀) score := reaches_grown (same reaches)
        refine ⟨grows, fun closed => ?_⟩
        have reached : (s.grown fixed p₀).improvedBy (totalCount selections) = false := by
          by_contra better
          rw [if_pos (by simpa using better)] at closed
          cases closed
        exact .of_bound grows (reaches_of_not_improvedBy reached) total_le

/-- A visit explores every family that honours its decisions, or reaches the limit. The induction is
on the depth, which the number of undecided statuses stays below. -/
theorem visit_spec (proper : Proper 0 s.knapsack.forest) (indexed : s.Indexed) (depth : Nat)
    (fixed : List Decisions) (p : Progress) (coherent : s.Coherent fixed)
    (deep : s.undecided fixed < depth) :
    s.Outcome fixed p (s.visit depth fixed p) := by
  induction depth generalizing fixed p with
  | zero => omega
  | succ depth ih =>
    rw [visit_succ]
    split
    case isTrue => rfl
    case isFalse =>
      rcases expanded : s.expand fixed p with ⟨p₁, conflict⟩
      obtain ⟨grows, explores⟩ := expand_spec proper indexed coherent expanded
      cases conflict with
      | none => exact explores rfl
      | some c =>
        obtain ⟨kept, dropped, branches⟩ :=
          exists_branches_of_expand proper.itemized indexed coherent expanded
        have kept_lt := branches.kept_lt
        have dropped_lt := branches.dropped_lt
        simp only [visitBranches, visitBranch, branches.withKept_eq, branches.withDropped_eq]
        exact .branch grows (ih kept _ branches.kept_coherent (by omega))
          (fun p₂ => ih dropped p₂ branches.dropped_coherent (by omega))
          fun is_family => branches.splits (is_family.nests indexed)

/-! ### Runs -/

theorem honours_start : s.Honours (s.budgets.map fun _ => .filled s.items .free) family := by
  intro place lt i inside
  rw [statusAt_start]
  exact ⟨nofun, nofun⟩

theorem undecided_start_lt :
    s.undecided (s.budgets.map fun _ => .filled s.items .free)
      < s.items * s.budgets.length + 1 :=
  Nat.lt_succ_of_le undecided_le

theorem outcome_start (proper : Proper 0 s.knapsack.forest) (indexed : s.Indexed) :
    s.Outcome (s.budgets.map fun _ => .filled s.items .free) ⟨0, none⟩
      (s.visit (s.items * s.budgets.length + 1) (s.budgets.map fun _ => .filled s.items .free)
        ⟨0, none⟩) :=
  visit_spec proper indexed _ _ _ coherent_start undecided_start_lt

/-- A search that ends gives the levels of a family, and no family keeps more. -/
theorem run_eq_ok {l : Levels} (proper : Proper 0 s.knapsack.forest) (indexed : s.Indexed)
    (eq : s.run = .ok l) : s.Valid l ∧ ∀ family, s.Family family → s.total family ≤ l.score := by
  refine ⟨(grounded_of_run proper.itemized indexed eq).valid proper, fun family is_family => ?_⟩
  unfold run at eq
  split at eq
  case isTrue empty => simp [total, List.isEmpty_iff.1 empty]
  case isFalse =>
    have outcome := outcome_start proper indexed
    obtain ⟨p, visited, answered⟩ := bind_eq_ok_iff.1 eq
    rw [visited] at outcome
    obtain ⟨l', best, le⟩ := outcome.covers is_family honours_start
    rw [best] at answered
    obtain rfl := Except.ok.inj answered
    exact le

/-- A search that fails has reached its limit, or there is no family. -/
theorem run_eq_error {e : PruneError Exact} (proper : Proper 0 s.knapsack.forest)
    (indexed : s.Indexed) (eq : s.run = .error e) :
    e = .searchLimitExceeded s.limit ∨ ∀ family, ¬ s.Family family := by
  unfold run at eq
  split at eq
  case isTrue => simp at eq
  case isFalse =>
    have outcome := outcome_start proper indexed
    dsimp only [Bind.bind, Except.bind] at eq
    split at eq
    · rename_i e' visited
      rw [visited] at outcome
      obtain rfl := Except.error.inj eq
      exact .inl outcome
    · rename_i p visited
      rw [visited] at outcome
      right
      intro family is_family
      obtain ⟨l, best, -⟩ := outcome.covers is_family honours_start
      simp [best] at eq

end Search

end SureCode
