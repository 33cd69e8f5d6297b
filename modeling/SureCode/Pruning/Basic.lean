import SureCode.Node.Record

/-!
# Prunings

Pruning decides, for one cost threshold, which nodes of a tree to retain. This module holds what the
engines share: how a cost is compared with a budget, the ways pruning can fail, and the form of its
answers.
-/

namespace SureCode

variable {κ : Type}

/-! ### Budgets -/

/-- How far a retained cost may exceed its budget. -/
def slack [Scalar κ] : κ := ((1 : Nat) : κ) / ((1000000000 : Nat) : κ)

/-- Whether a cost stays within a budget. -/
def fits [Scalar κ] (budget cost : κ) : Bool := cost ≤ budget + slack

/-! ### Engines -/

/-- The two ways to prune: all thresholds at once with the most nodes retained, or each threshold by
itself with the dearest nodes removed first. -/
inductive Engine where
  | exact
  | greedy
deriving DecidableEq, Repr

namespace Engine

def label : Engine → String
  | exact => "exact"
  | greedy => "greedy"

def ofLabel? : String → Option Engine
  | "exact" => some exact
  | "greedy" => some greedy
  | _ => none

/-- The complaint about a name that no engine has. -/
def unknownMessage (name : String) : String :=
  "unknown engine `" ++ name ++ "`, expected `exact` or `greedy`"

end Engine

/-! ### Failures -/

/-- Why there is no pruning. -/
inductive PruneError (κ : Type) where
  | unsortedThresholds (previous next : κ)
  | invalidThreshold (threshold : κ)
  | searchLimitExceeded (limit : Nat)
  | unsolved
  | missingParent (node : Nat)
deriving DecidableEq, Repr

/-- The wording of a failure, given the way to write a cost. -/
def PruneError.message (write : κ → String) : PruneError κ → String
  | unsortedThresholds previous next =>
    "thresholds must be sorted in descending order, found " ++ write previous ++ " before "
      ++ write next
  | invalidThreshold threshold => "threshold " ++ write threshold ++ " is not a number"
  | searchLimitExceeded limit => "search gave up after " ++ toString limit ++ " expansions"
  | unsolved => "search finished without any admissible selection"
  | missingParent node => "node " ++ toString node ++ " has no registered parent"

/-! ### Answers -/

/-- Whether the retained cost fits the threshold. -/
inductive Check where
  | sat
  | unsat
deriving DecidableEq, Repr

def Check.label : Check → String
  | sat => "sat"
  | unsat => "unsat"

/-- What pruning one tree for one threshold gives. -/
structure Pruning (κ : Type) where
  maxCost : κ
  check : Check
  /-- The retained nodes only, if there are any. -/
  pruned : Option (Node κ)
  /-- The whole tree with every node marked, if anything could be selected. -/
  annotated : Option (Node κ)
  /-- The summed charge of the retained nodes. -/
  errorOfTree : κ
  /-- The retained share of the nodes. -/
  fracIncluded : κ
deriving Repr

namespace Pruning

def isSat (p : Pruning κ) : Bool := p.check == .sat

/-- The answer where no selection fits the threshold. -/
def infeasible [Scalar κ] (maxCost : κ) : Pruning κ where
  maxCost
  check := .unsat
  pruned := none
  annotated := none
  errorOfTree := Scalar.zero
  fracIncluded := Scalar.zero

/-- The document of an answer. -/
def toJson [Scalar κ] (p : Pruning κ) : Json κ :=
  .object
    [("max_cost", .ofScalar p.maxCost), ("check", .string p.check.label),
     ("pruned", .ofOption Node.toJson p.pruned), ("annotated", .ofOption Node.toJson p.annotated),
     ("error_of_tree", .ofScalar p.errorOfTree), ("frac_included", .ofScalar p.fracIncluded)]

end Pruning

end SureCode
