import SureCode.Pruning.LeastCost
import SureCode.Pruning.Reconstruction
import SureCode.Pruning.Search
import SureCode.Pruning.Thresholds

/-!
# The exact engine

Prunes one tree for a list of thresholds, the loosest first, so that what is retained under a
tighter threshold is retained under every looser one and as many items as possible are retained in
total. A threshold that not even the least cost fits has no selection.
-/

namespace SureCode

variable {κ : Type} [Scalar κ]

/-- How many times the search may solve all budgets unless another limit is given. -/
def defaultSearchLimit : Nat := 100000

namespace Outline

/-- The leading thresholds that the least cost fits. -/
def feasible (outline : Outline κ) (maxHoles : HoleBudget) (thresholds : List κ) : List κ :=
  match outline.leastCost? maxHoles with
  | some least => thresholds.takeWhile fun threshold => fits threshold least
  | none => []

/-- The search for the items to keep under some thresholds. The root is paid for beforehand. -/
def search (outline : Outline κ) (maxHoles : HoleBudget) (limit : Nat) (thresholds : List κ) :
    Search κ where
  knapsack := ⟨outline.forest, maxHoles⟩
  index := outline.index
  budgets := thresholds.map fun threshold => threshold - outline.rootCharge
  limit

end Outline

/-- Prunes a tree for every threshold, in the given order. -/
def Node.pruneExact (maxHoles : HoleBudget) (limit : Nat) (t : Node κ) (thresholds : List κ) :
    Except (PruneError κ) (List (Pruning κ)) := do
  checkThresholds thresholds
  let outline := Outline.ofNode t
  let feasible := outline.feasible maxHoles thresholds
  let levels ← (outline.search maxHoles limit feasible).run
  return thresholds.zipIdx.map fun (threshold, place) =>
    if place < feasible.length then
      (t.reconstruct (outline.keeps (levels.keeps place))).toPruning threshold .sat
    else .infeasible threshold

end SureCode
