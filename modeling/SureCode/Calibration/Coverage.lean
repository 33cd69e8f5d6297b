import SureCode.Json.Basic

/-!
# Coverage

An outcome says for one sample and one threshold whether the pruned prediction was found in the
target and how much of it was retained. Coverage sums up the outcomes of every threshold.
-/

namespace SureCode

variable {κ : Type}

/-- One sample under one threshold. -/
structure Outcome (κ : Type) where
  maxCost : κ
  contained : Bool
  fracIncluded : κ
deriving Repr, DecidableEq

/-- The outcome in the document of a record. -/
def Outcome.ofJson? [Scalar κ] (json : Json κ) : Option (Outcome κ) := do
  let fields ← json.toFields? ["pred_in_target", "output"]
  let contained ← fields.required "pred_in_target" fun verdict => do
    let fields ← verdict.toFields? ["eval"]
    fields.required "eval" Json.toBool?
  let (maxCost, fracIncluded) ← fields.required "output" fun output => do
    let fields ← output.toFields? ["max_cost", "frac_included"]
    let maxCost ← fields.required "max_cost" Json.toScalar?
    let fracIncluded ← fields.required "frac_included" Json.toScalar?
    return (maxCost, fracIncluded)
  return { maxCost, contained, fracIncluded }

/-- All outcomes of one threshold. -/
structure Coverage (κ : Type) where
  maxCost : κ
  /-- The probability that the threshold stands for. -/
  tau : κ
  samples : Nat
  /-- The percentage of samples whose pruned prediction was found in the target. -/
  coverage : κ
  percentRemoved : κ
deriving Repr, DecidableEq

/-- The document of a coverage. -/
def Coverage.toJson [Scalar κ] (c : Coverage κ) : Json κ :=
  .object
    [("max_cost", .ofScalar c.maxCost), ("tau", .ofScalar c.tau), ("samples", .ofNat c.samples),
     ("coverage", .ofScalar c.coverage), ("percent_nodes_removed", .ofScalar c.percentRemoved)]

/-- The counts of one threshold. -/
structure Tally (κ : Type) where
  maxCost : κ
  samples : Nat
  contained : Nat
  /-- The retained shares added up. -/
  included : κ
deriving Repr

namespace Tally

/-- No outcomes of a threshold. -/
def empty [Scalar κ] (maxCost : κ) : Tally κ := ⟨maxCost, 0, 0, Scalar.zero⟩

/-- One outcome more. -/
def add [Scalar κ] (tally : Tally κ) (o : Outcome κ) : Tally κ :=
  { tally with
    samples := tally.samples + 1
    contained := tally.contained + o.contained.toNat
    included := tally.included + o.fracIncluded }

/-- Counts an outcome at its threshold, which comes last if it is new. -/
def record [Scalar κ] (o : Outcome κ) : List (Tally κ) → List (Tally κ)
  | [] => [(empty o.maxCost).add o]
  | tally :: rest =>
    if Scalar.same tally.maxCost o.maxCost then tally.add o :: rest else tally :: record o rest

/-- One hundred. -/
def hundred [Scalar κ] : κ := ((100 : Nat) : κ)

/-- The coverage that the counts amount to. -/
def toCoverage [LogScalar κ] (tally : Tally κ) : Coverage κ where
  maxCost := tally.maxCost
  tau := LogScalar.exp (Scalar.zero - tally.maxCost)
  samples := tally.samples
  coverage := (tally.contained : κ) / (tally.samples : κ) * hundred
  percentRemoved := hundred - tally.included / (tally.samples : κ) * hundred

end Tally

/-- The coverage of every threshold that occurs, the loosest first. -/
def aggregate [LogScalar κ] (outcomes : List (Outcome κ)) : List (Coverage κ) :=
  let tallies := outcomes.foldl (fun tallies o => Tally.record o tallies) []
  (tallies.map Tally.toCoverage).mergeSort fun a b => Scalar.totalLe b.maxCost a.maxCost

end SureCode
